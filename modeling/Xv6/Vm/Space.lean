import Xv6.Vm.Mapping

/-! # The user part of an address space

uvmalloc, uvmdealloc and uvmcopy grow and shrink the user part of a table page by page. A page that
stays mapped keeps its bytes, and no page outside the table and the free list is written.
-/

namespace Xv6.Vm

open Xv6.Framework
open Xv6.Memory (Pte PageTable Mem lastUser Within Spans Edited Held Ample)

variable {r r' r'' : Machine} {root p x : Page} {i : Index} {k n : Nat} {perm : UInt64}

/-- The pages that belong to a table, and the free ones. -/
def Owned (r : Machine) (root : Page) (x : Page) : Prop :=
  r.mem.free x + (tableAt r.ram root).tables x + (tableAt r.ram root).user x ≠ 0

/-- The user pages below page `n` keep their entries and their bytes. -/
structure Keeps (r : Machine) (root : Page) (n : Nat) (r' : Machine) : Prop where
  pte : ∀ i, vpn i < n → pteAt r'.ram root i = pteAt r.ram root i
  byte : ∀ i, vpn i < n → ∀ j < PGSIZE,
    r'.ram (PTE2PA (pteAt r.ram root i) + j) = r.ram (PTE2PA (pteAt r.ram root i) + j)
  kernel : ∀ i, lastUser ≤ vpn i → pteAt r'.ram root i = pteAt r.ram root i

namespace Keeps

theorem refl (r : Machine) (root : Page) (n : Nat) : Keeps r root n r :=
  ⟨fun _ _ => rfl, fun _ _ _ _ => rfl, fun _ _ => rfl⟩

theorem trans (h : Keeps r root n r') (h' : Keeps r' root n r'') : Keeps r root n r'' := by
  refine ⟨fun i hi => (h'.pte i hi).trans (h.pte i hi), fun i hi j hj => ?_,
    fun i hi => (h'.kernel i hi).trans (h.kernel i hi)⟩
  have hb := h'.byte i hi j hj
  rw [h.pte i hi] at hb
  exact hb.trans (h.byte i hi j hj)

theorem mono (h : Keeps r root n r') (hk : k ≤ n) : Keeps r root k r' :=
  ⟨fun i hi => h.pte i (by omega), fun i hi => h.byte i (by omega), h.kernel⟩

end Keeps

/-- The user part of a table has changed from page `n` on. -/
structure Resized (r : Machine) (root : Page) (n : Nat) (r' : Machine) : Prop where
  edited : Edited r.mem (tableAt r.ram root) r'.mem (tableAt r'.ram root)
  keeps : Keeps r root n r'
  off : Off (Owned r root) r.ram r'.ram

namespace Resized

theorem refl (r : Machine) (root : Page) (n : Nat) : Resized r root n r :=
  ⟨.refl _ _, .refl r root n, .refl _ _⟩

theorem owned (h : Resized r root n r') : Owned r' root x ↔ Owned r root x := by
  rw [Owned, Owned, h.edited.count]

theorem trans (h : Resized r root n r') (h' : Resized r' root n r'') : Resized r root n r'' :=
  ⟨h.edited.trans h'.edited, h.keeps.trans h'.keeps,
    h.off.trans (h'.off.mono fun _ hx => h.owned.mp hx)⟩

theorem mono (h : Resized r root n r') (hk : k ≤ n) : Resized r root k r' :=
  ⟨h.edited, h.keeps.mono hk, h.off⟩

end Resized

theorem within_apart (hw : Within r.mem (tableAt r.ram root)) : Apart r.mem (tableAt r.ram root) :=
  fun x => (Nat.le_add_right _ _).trans (hw x)

/-- The page of a user leaf is in the table once, and nowhere else. -/
theorem user_page {pte : Pte} {m : Mem} {pt : PageTable} (hw : Within m pt) (hi : vpn i < lastUser)
    (hl : pt.leaf i = some pte) :
    m.free pte.page = 0 ∧ pt.tables pte.page = 0 ∧ pt.user pte.page = 1 := by
  have hx := hw pte.page
  have hle := Memory.hit_le_user hi hl pte.page
  have hframe := m.frame_le pte.page
  rw [Memory.hit_self] at hle
  omega

theorem user_page_inj {pte pte' : Pte} {m : Mem} {pt : PageTable} {j : Index} (hw : Within m pt)
    (hi : vpn i < lastUser) (hj : vpn j < lastUser) (hl : pt.leaf i = some pte)
    (hl' : pt.leaf j = some pte') (he : pte.page = pte'.page) : i = j := by
  by_contra hne
  have hsum := add_le_sum_univ (fun l => Memory.ownLeaf pte.page l (pt.leaf l)) hne
  have hone := (user_page hw hi hl).2.2
  rw [PageTable.user] at hone
  rw [hl, hl', Memory.ownLeaf_some hi, Memory.ownLeaf_some hj, ← he, Memory.hit_self] at hsum
  omega

theorem leaf_pte {pte : Pte} (h : (tableAt r.ram root).leaf i = some pte) :
    pteAt r.ram root i &&& PTE_V ≠ 0 ∧ PTE2PA (pteAt r.ram root i) = pte.page * PGSIZE ∧
      pte.perm = permOf (pteAt r.ram root i) := by
  rw [leaf_tableAt] at h
  exact view_eq_some h

/-- A change that writes no page of the first `n`. -/
theorem keeps_of_off {P : Page → Prop}
    (hsp : ∀ i, vpn i < n → ∃ pte, (tableAt r.ram root).leaf i = some pte)
    (hpte : ∀ i, vpn i < n ∨ lastUser ≤ vpn i → pteAt r'.ram root i = pteAt r.ram root i)
    (hoff : Off P r.ram r'.ram)
    (hP : ∀ i pte, vpn i < n → (tableAt r.ram root).leaf i = some pte → ¬ P pte.page) :
    Keeps r root n r' := by
  refine ⟨fun i hi => hpte i (.inl hi), fun i hi j hj => ?_, fun i hi => hpte i (.inr hi)⟩
  obtain ⟨pte, hl⟩ := hsp i hi
  rw [(leaf_pte hl).2.1]
  exact hoff pte.page (hP i pte hi hl) j hj

/-! ## Shrinking -/

theorem dropped_le_user {pt : PageTable} (h : k + n ≤ lastUser) (x : Page) :
    dropped pt k n x ≤ pt.user x := by
  refine Finset.sum_le_sum fun i _ => ?_
  split
  · rename_i hi
    rw [Memory.ownLeaf, if_pos (by omega)]
  · exact Nat.zero_le _

theorem dropped_ne_zero {pt : PageTable} (h : dropped pt k n x ≠ 0) :
    ∃ i pte, k ≤ vpn i ∧ vpn i < k + n ∧ pt.leaf i = some pte ∧ pte.page = x := by
  obtain ⟨i, -, hi⟩ := Finset.exists_ne_zero_of_sum_ne_zero h
  split at hi
  · rename_i hr
    cases hl : pt.leaf i with
    | none =>
      rw [hl] at hi
      exact absurd rfl hi
    | some pte =>
      rw [hl, Option.elim_some] at hi
      refine ⟨i, pte, hr.1, hr.2, hl, ?_⟩
      by_contra hne
      exact hi (if_neg hne)
  · exact absurd rfl hi

theorem droppable_of_within (hw : Within r.mem (tableAt r.ram root)) (h : k + n ≤ lastUser) :
    Droppable r.mem (tableAt r.ram root) true k n := by
  intro x
  have hx := hw x
  have hle : dropped (tableAt r.ram root) k n x ≤ _ := dropped_le_user h x
  rw [if_pos rfl]
  omega

/-- uvmunmap of the last user pages. -/
theorem shrink_returns (hw : Within r.mem (tableAt r.ram root)) (hsp : Spans (tableAt r.ram root) n)
    (hk : k ≤ n) :
    Returns (uvmunmap (root * PGSIZE) (k * PGSIZE) (n - k) true) r fun _ r' =>
      Resized r root k r' ∧ Spans (tableAt r'.ram root) k := by
  have hbelow := hsp.below
  have hdrop := droppable_of_within hw (show k + (n - k) ≤ lastUser by omega)
  have htree := Memory.uvmunmap_returns (hsp.unmappable hw (show k + (n - k) ≤ n by omega))
  refine ((uvmunmap_refines hdrop).returns htree).mono ?_
  rintro - r' ⟨t, ⟨rfl, hd⟩, hs, ht, hf, hl⟩
  refine ⟨⟨hsp.edited_unmap (by omega) hs ht hf hl, ?_, hd.off.mono ?_⟩, hsp.unmap hk hl⟩
  · refine keeps_of_off (fun i hi => ?_) ?_ hd.off ?_
    · obtain ⟨pte, hleaf, -⟩ := hsp.mapped i (by omega)
      exact ⟨pte, hleaf⟩
    · intro i hi
      rw [hd.pte, unmapped, if_neg (by omega)]
    · rintro i pte hi hleaf (hx | ⟨-, hx⟩)
      · exact hx (user_page hw (by omega) hleaf).2.1
      · obtain ⟨j, pte', hj, hj', hleaf', he⟩ := dropped_ne_zero hx
        have hij := user_page_inj hw (by omega) (by omega) hleaf hleaf' he.symm
        rw [hij] at hi
        omega
  · rintro x (hx | ⟨-, hx⟩)
    · rw [Owned]
      omega
    · have hle : dropped (tableAt r.ram root) k (n - k) x ≤ _ := dropped_le_user (by omega) x
      rw [Owned]
      omega

/-! ## Growing by a page -/

/-- A page is taken from the free list and written. -/
structure Filled (r : Machine) (p : Page) (r' : Machine) : Prop where
  same : Memory.Same r.mem r'.mem
  free : ∀ x, r.mem.free x = r'.mem.free x + hit p x
  off : Off (· = p) r.ram r'.ram

namespace Filled

theorem owned (h : Filled r p r') : Owned r root p := by
  have hp := h.free p
  rw [Memory.hit_self] at hp
  rw [Owned]
  omega

/-- The page is not yet in the table. -/
theorem table (h : Filled r p r') (hw : Within r.mem (tableAt r.ram root)) :
    tableAt r'.ram root = tableAt r.ram root ∧ pteAt r'.ram root = pteAt r.ram root := by
  refine pteAt_off (within_apart hw).distinct h.off ?_
  rintro x rfl
  exact (within_apart hw).fresh (free_of_hit h.free)

theorem addr (h : Filled r p r') (hw : Within r.mem (tableAt r.ram root)) :
    (p + 1) * PGSIZE ≤ 2 ^ 56 := by
  have hframe : 0 < r.mem.frame p := by
    have hp := hw p
    have hf := h.free p
    rw [Memory.hit_self] at hf
    omega
  have hlt := frame_lt hframe
  calc (p + 1) * PGSIZE ≤ 557056 * PGSIZE := Nat.mul_le_mul_right _ hlt
    _ ≤ 2 ^ 56 := by decide

end Filled

/-- A page in flight, with the user part below page `n` as it was. -/
structure HeldPage (r : Machine) (root : Page) (n : Nat) (p : Page) (r' : Machine) : Prop where
  held : Held r.mem (tableAt r.ram root) p r'.mem (tableAt r'.ram root)
  keeps : Keeps r root n r'
  off : Off (Owned r root) r.ram r'.ram

/-- mappages of the page that follows the user part. -/
theorem extend_returns (hw : Within r.mem (tableAt r.ram root)) (hsp : Spans (tableAt r.ram root) k)
    (hf : Filled r p r') (hperm : perm.toNat < 2 ^ 10) (hread : perm &&& PTE_R ≠ 0) :
    Returns (mappages (root * PGSIZE) (k * PGSIZE) PGSIZE (p * PGSIZE) perm) r' fun ok r'' =>
      (ok = true ∧ Resized r root k r'' ∧ Spans (tableAt r''.ram root) (k + 1) ∧
          (∀ i, vpn i = k → pteAt r''.ram root i = PA2PTE (p * PGSIZE) ||| perm ||| PTE_V) ∧
          (∀ j < PGSIZE, r''.ram (p * PGSIZE + j) = r'.ram (p * PGSIZE + j)) ∨
        ok = false ∧ HeldPage r root k p r'') ∧
      ∀ n, Ample (n + 2) r'.mem → ok = true ∧ Ample n r''.mem := by
  obtain ⟨htable, hpte⟩ := hf.table hw
  have hlast := hsp.lt_lastUser hw
  have hle : ∀ x, r'.mem.free x ≤ r.mem.free x := fun x => Nat.le.intro (hf.free x).symm
  have hheld : Held r.mem (tableAt r.ram root) p r'.mem (tableAt r'.ram root) := by
    rw [htable]
    exact Held.of_kalloc hf.same hf.free
  have hap : Apart r'.mem (tableAt r'.ram root) := by
    intro x
    have hx := hw x
    have hx' := hle x
    rw [htable, hf.same.frame]
    omega
  have hmap := mappages_refines (k := k) hap hperm (hf.addr hw)
  refine (hmap.returns (hheld.mappages_returns hw hsp (decide_eq_true hread))).mono ?_
  rintro ok r'' ⟨t, ⟨hm, htable', hok, l, hl, htrue, hpte'⟩, hcases, hample⟩
  refine ⟨?_, fun n ha => ⟨hok.trans (hample n ha).1, (hample n ha).2⟩⟩
  -- only the new page, free ones and pages of the table are written
  have hoff : Off (fun x => x = p ∨ Spare r'.mem (tableAt r.ram root) x) r.ram r''.ram := by
    refine Off.trans (hf.off.mono fun x hx => .inl hx) (hm.off.mono fun x hx => .inr ?_)
    rw [← htable]
    exact hx
  have howned : Off (Owned r root) r.ram r''.ram := by
    refine hoff.mono ?_
    rintro x (rfl | hx)
    · exact hf.owned
    · have hx' := hle x
      rw [Spare] at hx
      rw [Owned]
      omega
  have hkeeps : Keeps r root k r'' := by
    refine keeps_of_off (fun i hi => ?_) (fun i hi => ?_) hoff ?_
    · obtain ⟨pte, hleaf, -⟩ := hsp.mapped i hi
      exact ⟨pte, hleaf⟩
    · rw [hpte', mapped, if_neg (by omega), hpte]
    · rintro i pte hi hleaf (he | hx)
      · have h0 := (user_page hw (by omega) hleaf).1
        rw [he] at h0
        exact free_of_hit hf.free h0
      · obtain ⟨h0, h1, -⟩ := user_page hw (by omega) hleaf
        have hx' := hle pte.page
        rw [Spare] at hx
        omega
  rcases hcases with ⟨ht, hed, hsp', -⟩ | ⟨ht, hheld'⟩
  · left
    have hl1 := htrue (hok.trans ht)
    rw [← htable'] at hed hsp'
    refine ⟨hok.trans ht, ⟨hed, hkeeps, howned⟩, hsp', fun i hi => ?_, fun j hj => ?_⟩
    · rw [hpte', mapped, hi, if_pos (by omega), Nat.sub_self, Nat.add_zero]
    · refine hm.off p ?_ j hj
      have hfree := hf.free p
      have hx := hw p
      have hframe := r.mem.frame_le p
      rw [Memory.hit_self] at hfree
      rw [htable, Spare]
      omega
  · right
    rw [← htable'] at hheld'
    exact ⟨hok.trans ht, hheld', hkeeps, howned⟩

theorem HeldPage.kfree_returns (h : HeldPage r root k p r') (hw : Within r.mem (tableAt r.ram root))
    (hsp : Spans (tableAt r.ram root) k) :
    Returns (kfree (p * PGSIZE)) r' fun _ r'' =>
      Resized r root k r'' ∧ Spans (tableAt r''.ram root) k := by
  have hcount := h.held.count p
  have hx := hw p
  have hframe := r.mem.frame_le p
  rw [Memory.hit_self] at hcount
  have hap : Apart r'.mem (tableAt r'.ram root) := by
    intro x
    have hc := h.held.count x
    have hx := hw x
    rw [h.held.same.frame]
    omega
  refine ((kfree_refines r' p).returns (h.held.kfree_returns hw)).mono ?_
  rintro - r'' ⟨-, hrel, hed⟩
  have hoff : Off (· = p) r'.ram r''.ram := hrel.off.mono fun x hx => hx.2
  obtain ⟨htable, hpte⟩ := pteAt_off hap.distinct hoff (by
    rintro x rfl
    omega)
  rw [← htable] at hed
  refine ⟨⟨hed, ⟨fun i hi => ?_, fun i hi j hj => ?_, fun i hi => ?_⟩, h.off.trans (hoff.mono ?_)⟩, ?_⟩
  · rw [hpte, h.keeps.pte i hi]
  · obtain ⟨pte, hleaf, -⟩ := hsp.mapped i hi
    have hlast := hsp.below
    have hne : pte.page ≠ p := by
      intro he
      have hone := (user_page hw (by omega) hleaf).2.2
      have hsame := PageTable.user_congr h.held.leaf p
      rw [he] at hone
      omega
    rw [← h.keeps.byte i hi j hj, (leaf_pte hleaf).2.1]
    exact hoff pte.page hne j hj
  · rw [hpte, h.keeps.kernel i hi]
  · rintro x rfl
    rw [Owned]
    omega
  · rw [htable]
    exact hsp.congr h.held.leaf

/-! ## uvmdealloc and uvmalloc -/

theorem uvmdealloc_returns {oldsz : Nat} (hw : Within r.mem (tableAt r.ram root))
    (hsp : Spans (tableAt r.ram root) (Memory.pages oldsz)) (newsz : Nat) :
    Returns (uvmdealloc (root * PGSIZE) oldsz newsz) r fun sz r' =>
      sz = min oldsz newsz ∧ Resized r root (Memory.pages sz) r' ∧
        Spans (tableAt r'.ram root) (Memory.pages sz) := by
  rw [uvmdealloc]
  by_cases h1 : newsz ≥ oldsz
  · rw [if_pos h1]
    exact Returns.pure ⟨(Nat.min_eq_left h1).symm, .refl r root _, hsp⟩
  rw [if_neg h1]
  have hmin : newsz = min oldsz newsz := (Nat.min_eq_right (by omega)).symm
  have hle : Memory.pages newsz ≤ Memory.pages oldsz := Memory.pages_mono (by omega)
  by_cases h2 : Memory.PGROUNDUP newsz < Memory.PGROUNDUP oldsz
  · rw [if_pos h2]
    have hcount : (Memory.PGROUNDUP oldsz - Memory.PGROUNDUP newsz) / PGSIZE =
        Memory.pages oldsz - Memory.pages newsz := by
      rw [← Memory.pages_mul, ← Memory.pages_mul, ← Nat.sub_mul, Nat.mul_div_cancel _ (by decide)]
    simp only [hcount]
    rw [← Memory.pages_mul newsz]
    refine Returns.bind (shrink_returns hw hsp hle) ?_
    rintro - r' ⟨hres, hsp'⟩
    exact Returns.pure ⟨hmin, hres, hsp'⟩
  · rw [if_neg h2]
    have heq : Memory.pages newsz = Memory.pages oldsz := by
      have h3 := Memory.pages_mul newsz
      have h4 := Memory.pages_mul oldsz
      simp only [PGSIZE] at h3 h4
      omega
    refine Returns.pure ⟨hmin, .refl r root _, ?_⟩
    rw [heq]
    exact hsp

theorem kalloc_cases (r : Machine) (root : Page) (n : Nat) :
    Returns kalloc r fun a r' => (a = none ∧ Resized r root n r' ∧ r'.ram = r.ram ∨
        ∃ p, a = some (p * PGSIZE) ∧ Filled r p r') ∧
      ∀ n, Ample (n + 1) r.mem → a ≠ none ∧ Ample n r'.mem := by
  refine ((kalloc_refines r).returns (Memory.kalloc_returns r.mem)).mono ?_
  rintro a r' ⟨e, ⟨hs, hf, hnone, hsome⟩, -, -, hample⟩
  cases e with
  | none =>
    obtain ⟨ha, hram⟩ := hnone rfl
    refine ⟨.inl ⟨ha, ⟨⟨hs, fun x => ?_, fun i _ => ?_⟩, ⟨fun i _ => ?_, fun i _ j _ => ?_,
      fun i _ => ?_⟩, ?_⟩, hram⟩, fun n h => nomatch (hample n h).1⟩
    · rw [hram, hf x]
      rfl
    · rw [hram]
    · rw [hram]
    · rw [hram]
    · rw [hram]
    · rw [hram]
      exact .refl _ _
  | some p =>
    obtain ⟨ha, hram⟩ := hsome p rfl
    refine ⟨.inr ⟨p, ha, hs, hf, ?_⟩, fun n h => ⟨by simp [ha], (hample n h).2⟩⟩
    rw [hram]
    exact off_page _

theorem Filled.lt (h : Filled r p r') (hw : Within r.mem (tableAt r.ram root)) :
    p * PGSIZE < 2 ^ 56 :=
  Nat.lt_of_lt_of_le (Nat.mul_lt_mul_of_pos_right p.lt_succ_self (by decide)) (h.addr hw)

theorem Filled.fill (h : Filled r p r') (f : Bytes) :
    Filled r p (r'.move (p * PGSIZE) f PGSIZE) :=
  ⟨h.same, h.free, h.off.trans (off_page f)⟩

/-- The pages from `k` to `n` are zero. -/
def Zero (r : Machine) (root : Page) (k n : Nat) : Prop :=
  ∀ i, k ≤ vpn i → vpn i < n → ∀ j < PGSIZE, r.ram (PTE2PA (pteAt r.ram root i) + j) = 0

theorem allocLoop_returns {k₀ : Nat} (hperm : perm.toNat < 2 ^ 10) (hread : perm &&& PTE_R ≠ 0)
    (n : Nat) :
    ∀ (k : Nat) (r : Machine), k₀ ≤ k → Within r.mem (tableAt r.ram root) →
      Spans (tableAt r.ram root) k →
      Returns (allocLoop (root * PGSIZE) (k₀ * PGSIZE) perm (k * PGSIZE) n) r fun ok r' =>
        (ok = true → Resized r root k r' ∧ Spans (tableAt r'.ram root) (k + n) ∧
          Zero r' root k (k + n) ∧
          ∀ i, k ≤ vpn i → vpn i < k + n → PTE_FLAGS (pteAt r'.ram root i) = perm ||| PTE_V) ∧
        (ok = false → Resized r root k₀ r' ∧ Spans (tableAt r'.ram root) k₀) := by
  induction n with
  | zero =>
    intro k r _ _ hsp
    exact Returns.pure ⟨fun _ => ⟨.refl r root k, hsp, fun i h1 h2 => by omega,
      fun i h1 h2 => by omega⟩, nofun⟩
  | succ n ih =>
    intro k r hk hw hsp
    -- giving the pages of this call back
    have hback : ∀ r', Resized r root k r' → Spans (tableAt r'.ram root) k →
        Returns (do let _ ← uvmdealloc (root * PGSIZE) (k * PGSIZE) (k₀ * PGSIZE)
                    return false) r' fun ok r'' =>
          (ok = true → Resized r root k r'' ∧ Spans (tableAt r''.ram root) (k + (n + 1)) ∧
            Zero r'' root k (k + (n + 1)) ∧ ∀ i, k ≤ vpn i → vpn i < k + (n + 1) →
              PTE_FLAGS (pteAt r''.ram root i) = perm ||| PTE_V) ∧
          (ok = false → Resized r root k₀ r'' ∧ Spans (tableAt r''.ram root) k₀) := by
      intro r' hres hsp'
      have hsp'' : Spans (tableAt r'.ram root) (Memory.pages (k * PGSIZE)) := by
        rwa [Memory.pages_page]
      refine Returns.bind (uvmdealloc_returns (hw.edited hres.edited) hsp'' (k₀ * PGSIZE)) ?_
      rintro sz r'' ⟨hsz, hres', hsp₂⟩
      rw [Nat.min_eq_right (Nat.mul_le_mul_right _ hk)] at hsz
      rw [hsz, Memory.pages_page] at hres' hsp₂
      exact Returns.pure ⟨nofun, fun _ => ⟨(hres.mono hk).trans hres', hsp₂⟩⟩
    refine Returns.bind (kalloc_cases r root k) ?_
    rintro a r₁ ⟨⟨rfl, hres, hram⟩ | ⟨p, rfl, hfill⟩, -⟩
    · refine hback r₁ hres ?_
      rw [hram]
      exact hsp
    refine Returns.bind_ok (memset_eq (p * PGSIZE) 0 PGSIZE r₁) ?_
    refine Returns.bind (extend_returns hw hsp (hfill.fill fun _ => 0) hperm hread) ?_
    rintro ok r₂ ⟨⟨rfl, hres, hsp₂, hentry, hbytes⟩ | ⟨rfl, hheld⟩, -⟩
    · rw [← Nat.succ_mul]
      refine (ih (k + 1) r₂ (by omega) (hw.edited hres.edited) hsp₂).mono ?_
      rintro ok r₃ ⟨htrue, hfalse⟩
      refine ⟨fun h => ?_, fun h => ?_⟩
      · obtain ⟨hres', hsp₃, hzero, hflags⟩ := htrue h
        have hpa := hfill.lt hw
        have hfirst : ∀ i, vpn i = k → pteAt r₃.ram root i = PA2PTE (p * PGSIZE) ||| perm ||| PTE_V := by
          intro i hi
          rw [hres'.keeps.pte i (by omega), hentry i hi]
        rw [show k + (n + 1) = k + 1 + n by omega]
        refine ⟨hres.trans (hres'.mono k.le_succ), hsp₃, fun i h1 h2 j hj => ?_, fun i h1 h2 => ?_⟩
        · by_cases hi : vpn i = k
          · have hbyte := hres'.keeps.byte i (by omega) j hj
            rw [hentry i hi, PTE2PA_pack hpa hperm, Nat.mul_div_cancel p (by decide)] at hbyte
            rw [hfirst i hi, PTE2PA_pack hpa hperm, Nat.mul_div_cancel p (by decide), hbyte,
              hbytes j hj]
            exact move_inside hj
          · exact hzero i (by omega) h2 j hj
        · by_cases hi : vpn i = k
          · rw [hfirst i hi, flags_pack hpa hperm]
          · exact hflags i (by omega) h2
      · obtain ⟨hres', hsp₃⟩ := hfalse h
        exact ⟨(hres.mono hk).trans hres', hsp₃⟩
    · refine Returns.bind (hheld.kfree_returns hw hsp) ?_
      rintro - r₃ ⟨hres, hsp₃⟩
      exact hback r₃ hres hsp₃

/-- uvmalloc: the new pages are zero, and a failure leaves the user part as it was. -/
theorem uvmalloc_returns {oldsz : Nat} (hw : Within r.mem (tableAt r.ram root))
    (hsp : Spans (tableAt r.ram root) (Memory.pages oldsz)) (newsz : Nat) {xperm : UInt64}
    (hperm : (PTE_R ||| PTE_U ||| xperm).toNat < 2 ^ 10)
    (hread : (PTE_R ||| PTE_U ||| xperm) &&& PTE_R ≠ 0) :
    Returns (uvmalloc (root * PGSIZE) oldsz newsz xperm) r fun sz r' =>
      sz = 0 ∧ Resized r root (Memory.pages oldsz) r' ∧
          Spans (tableAt r'.ram root) (Memory.pages oldsz) ∨
        sz ≠ 0 ∧ sz = max oldsz newsz ∧ Resized r root (Memory.pages oldsz) r' ∧
          Spans (tableAt r'.ram root) (Memory.pages sz) ∧
          Zero r' root (Memory.pages oldsz) (Memory.pages sz) ∧
          ∀ i, Memory.pages oldsz ≤ vpn i → vpn i < Memory.pages sz →
            PTE_FLAGS (pteAt r'.ram root i) = PTE_R ||| PTE_U ||| xperm ||| PTE_V := by
  rw [uvmalloc]
  by_cases h1 : newsz < oldsz
  · rw [if_pos h1]
    refine Returns.pure (.inr ⟨by omega, by omega, .refl r root _, hsp, fun i h1 h2 => by omega,
      fun i h1 h2 => by omega⟩)
  rw [if_neg h1, ← Memory.pages_mul oldsz]
  refine Returns.bind (allocLoop_returns hperm hread _ (Memory.pages oldsz) r le_rfl hw hsp) ?_
  rw [Memory.pages_mul, Memory.pages_grow h1]
  rintro ok r' ⟨htrue, hfalse⟩
  cases ok with
  | false =>
    obtain ⟨hres, hsp'⟩ := hfalse rfl
    exact Returns.pure (.inl ⟨rfl, hres, hsp'⟩)
  | true =>
    obtain ⟨hres, hsp', hzero, hflags⟩ := htrue rfl
    refine Returns.pure ?_
    by_cases h0 : newsz = 0
    · left
      have hold : oldsz = newsz := by omega
      refine ⟨h0, hres, ?_⟩
      rw [hold]
      exact hsp'
    · exact .inr ⟨h0, (Nat.max_eq_right (by omega)).symm, hres, hsp', hzero, hflags⟩

end Xv6.Vm
