import Xv6.Memory.Tables

open Xv6.Framework

namespace Xv6.Memory

theorem vpn_index {va : Nat} (h : va < MAXVA) : vpn (index va) = va / PGSIZE := by
  simp only [MAXVA] at h
  simp only [vpn, index, PX, PGSIZE]
  omega

theorem vpn_injective {i j : Index} (h : vpn i = vpn j) : i = j := by
  obtain ⟨a, b, c⟩ := i
  obtain ⟨a', b', c'⟩ := j
  simp only [vpn] at h
  have h1 : (a : Nat) = a' := by omega
  have h2 : (b : Nat) = b' := by omega
  have h3 : (c : Nat) = c' := by omega
  rw [Fin.ext h1, Fin.ext h2, Fin.ext h3]

theorem vpn_page {k : Nat} (h : k * PGSIZE < MAXVA) : vpn (index (k * PGSIZE)) = k := by
  rw [vpn_index h, Nat.mul_div_cancel k (by decide)]

theorem vpn_user {k : Nat} (h : k < lastUser) :
    k * PGSIZE < MAXVA ∧ vpn (index (k * PGSIZE)) = k := by
  have hva : k * PGSIZE < MAXVA := by
    simp only [lastUser, TRAPFRAME, TRAMPOLINE, PGSIZE] at h ⊢
    omega
  exact ⟨hva, vpn_page hva⟩

/-- A page below MAXVA is found at its own index. -/
theorem index_page {n : Nat} {i : Index} (hi : vpn i = n) (h : n * PGSIZE < MAXVA) :
    index (n * PGSIZE) = i := by
  apply vpn_injective
  rw [vpn_page h, hi]

variable {m : Mem} {pt : PageTable} {va : Nat}

theorem descend_returns {α : Type} (e : Option (Table α)) (g : Page → α → Nat) (m : Mem) :
    Returns (descend e true) m fun r m' =>
      Same m m' ∧
        (∀ x, m'.free x + r.elim 0 (Table.weigh (g x) x) =
          m.free x + e.elim 0 (Table.weigh (g x) x)) ∧
        (∀ t, r = some t → e = some t ∨ e = none ∧ ∀ i, t.entry i = none) ∧
        (r = none → e = none) ∧ ∀ n, Ample (n + 1) m → r.isSome ∧ Ample n m' := by
  cases e with
  | some t =>
    refine Returns.pure ⟨.refl m, fun x => rfl, ?_, ?_, ?_⟩
    · intro u hu
      exact .inl hu
    · intro hu
      cases hu
    · intro n ha
      exact ⟨rfl, ha.mono (Nat.le_succ n)⟩
  | none =>
    refine Returns.bind (kalloc_returns m) ?_
    rintro r m' ⟨hs, hf, ha⟩
    refine Returns.pure ⟨hs, ?_, ?_, fun _ => rfl, ?_⟩
    · intro x
      rw [hf x]
      cases r with
      | none => rfl
      | some p =>
        rw [Option.map_some, Option.elim_some, Table.weigh_cleared]
        rfl
    · intro t ht
      cases r with
      | none => cases ht
      | some p =>
        cases ht
        exact .inr ⟨rfl, fun i => rfl⟩
    · intro n hn
      obtain ⟨hr, ha⟩ := ha n hn
      rw [Option.isSome_map]
      exact ⟨hr, ha⟩

/-- Where the level-0 table is there, walk changes nothing. -/
theorem walk_reached (h : pt.Reached (index va)) (hva : va < MAXVA) (alloc : Bool) (m : Mem) :
    walk pt va alloc m = .ok ((pt, some (index va)), m) := by
  obtain ⟨mid, low, h1, h2⟩ := h
  have h1 : pt.entry (PX 2 va) = some mid := h1
  have h2 : mid.entry (PX 1 va) = some low := h2
  rw [walk, if_neg (Nat.not_le.mpr hva), h1, descend]
  simp only [h2, descend, pure_bind]
  rw [Table.set_entry h2, Table.set_entry h1]
  rfl

/-- A table put behind an entry that shows the same leaves as what was there. -/
theorem PageTable.leaf_set {a : Fin 512} {mid : Table (Table Pte)}
    (h : ∀ b c, ((mid.entry b).bind fun low => low.entry c) = pt.leaf (a, b, c)) :
    PageTable.leaf (pt.set a (some mid)) = pt.leaf := by
  funext i
  by_cases hi : i.1 = a
  · subst hi
    rw [PageTable.leaf, Table.entry_set_self]
    exact h i.2.1 i.2.2
  · rw [PageTable.leaf, Table.entry_set_ne hi]
    rfl

/-- What descend found or made shows the leaves of the entry. -/
theorem bind_entry {α β : Type} {e : Option (Table α)} {t : Table α} (f : α → Option β)
    (h : e = some t ∨ e = none ∧ ∀ i, t.entry i = none) (b : Fin 512) :
    (t.entry b).bind f = e.bind fun u => (u.entry b).bind f := by
  rcases h with rfl | ⟨rfl, hn⟩
  · rfl
  · rw [hn]
    rfl

/-- walk with alloc: the pages it takes are in the table, and no leaf changes. -/
theorem walk_returns (pt : PageTable) (hva : va < MAXVA) (m : Mem) :
    Returns (walk pt va true) m fun r m' =>
      Same m m' ∧ r.1.leaf = pt.leaf ∧
        (∀ x, m'.free x + r.1.tables x = m.free x + pt.tables x) ∧
        (r.2 = none ∨ r.2 = some (index va) ∧ r.1.Reached (index va)) ∧
        ∀ n, Ample (n + 2) m → r.2.isSome ∧ Ample n m' := by
  rw [walk, if_neg (Nat.not_le.mpr hva)]
  refine Returns.bind (descend_returns _ lowPages m) ?_
  rintro (- | mid) m1 ⟨hs1, hf1, he1, hn1, ha1⟩
  · refine Returns.pure ⟨hs1, rfl, ?_, .inl rfl, ?_⟩
    · intro x
      have hf := hf1 x
      rw [hn1 rfl] at hf
      show m1.free x + pt.tables x = _
      omega
    · intro n ha
      cases (ha1 (n + 1) ha).1
  refine Returns.bind (descend_returns _ (fun _ (_ : Pte) => 0) m1) ?_
  have hmid : ∀ b c, ((mid.entry b).bind fun low => low.entry c) = pt.leaf (PX 2 va, b, c) :=
    fun b c => bind_entry (fun low : Table Pte => low.entry c) (he1 mid rfl) b
  rintro (- | low) m2 ⟨hs2, hf2, he2, hn2, ha2⟩
  · refine Returns.pure ⟨hs1.trans hs2, PageTable.leaf_set hmid, ?_, .inl rfl, ?_⟩
    · intro x
      have hf1 : m1.free x + midPages x mid = m.free x + (pt.entry (PX 2 va)).elim 0 (midPages x) :=
        hf1 x
      have hf2 := hf2 x
      have ht := Table.weigh_set (g := midPages x) (x := x) (t := pt) (PX 2 va) (some mid)
      rw [hn2 rfl] at hf2
      simp only [Option.elim_some, PageTable.tables] at hf2 ht ⊢
      omega
    · intro n ha
      cases (ha2 n (ha1 (n + 1) ha).2).1
  · refine Returns.pure ⟨hs1.trans hs2, PageTable.leaf_set ?_, ?_, .inr ⟨rfl, ?_⟩, ?_⟩
    · intro b c
      rw [← hmid b c]
      by_cases hb : b = PX 1 va
      · subst hb
        rw [Table.entry_set_self, Option.bind_some]
        rcases he2 low rfl with he | ⟨he, hz⟩
        · rw [he, Option.bind_some]
        · rw [he, hz]
          rfl
      · rw [Table.entry_set_ne hb]
    · intro x
      have hf1 : m1.free x + midPages x mid = m.free x + (pt.entry (PX 2 va)).elim 0 (midPages x) :=
        hf1 x
      have hf2 : m2.free x + lowPages x low = m1.free x + (mid.entry (PX 1 va)).elim 0 (lowPages x) :=
        hf2 x
      have hm : midPages x (mid.set (PX 1 va) (some low)) +
          (mid.entry (PX 1 va)).elim 0 (lowPages x) = midPages x mid + lowPages x low :=
        Table.weigh_set (PX 1 va) (some low)
      have ht := Table.weigh_set (g := midPages x) (x := x) (t := pt) (PX 2 va)
        (some (mid.set (PX 1 va) (some low)))
      simp only [Option.elim_some, PageTable.tables] at ht ⊢
      omega
    · exact ⟨_, low, Table.entry_set_self .., Table.entry_set_self ..⟩
    · intro n ha
      exact ⟨rfl, (ha2 n (ha1 (n + 1) ha).2).2⟩

/-- mappages of one page at a free place: the page is mapped there, or nothing is. -/
theorem mappages_returns (pt : PageTable) {pa : Page} {perm : Perm} (hva : va < MAXVA)
    (hal : va % PGSIZE = 0) (hfree : pt.leaf (index va) = none) (m : Mem) :
    Returns (mappages pt va PGSIZE pa perm) m fun r m' =>
      Same m m' ∧ (∀ x, m'.free x + r.1.tables x = m.free x + pt.tables x) ∧
        (r.2 = true ∧ r.1.leaf = Function.update pt.leaf (index va) (some ⟨pa, perm⟩) ∧
            (∀ x, r.1.user x = pt.user x + ownLeaf x (index va) (some ⟨pa, perm⟩)) ∨
          r.2 = false ∧ r.1.leaf = pt.leaf) ∧
        ∀ n, Ample (n + 2) m → r.2 = true ∧ Ample n m' := by
  have h1 : ¬(va % PGSIZE ≠ 0) := by simpa using hal
  rw [mappages, if_neg h1, show PGSIZE / PGSIZE = 1 from rfl]
  refine Returns.bind (walk_returns pt hva m) ?_
  rintro ⟨pt', r⟩ m' ⟨hs, hl, hf, hr, ha⟩
  rcases hr with rfl | ⟨rfl, hreach⟩
  · refine Returns.pure ⟨hs, hf, .inr ⟨rfl, hl⟩, fun n hn => ?_⟩
    cases (ha n hn).1
  · have hnone : pt'.leaf (index va) = none := by rw [hl, hfree]
    have hnot : ¬(pt'.leaf (index va)).isSome = true := by rw [hnone]; simp
    simp only [if_neg hnot]
    refine Returns.pure ⟨hs, ?_, .inl ⟨rfl, ?_, ?_⟩, fun n hn => ⟨rfl, (ha n hn).2⟩⟩
    · intro x
      rw [PageTable.tables_setLeaf hreach]
      exact hf x
    · rw [PageTable.leaf_setLeaf hreach, hl]
    · intro x
      have hu := PageTable.user_setLeaf hreach (some ⟨pa, perm⟩) x
      have h0 : ownLeaf x (index va) none = 0 := by simp [ownLeaf]
      rw [hnone, h0, PageTable.user_congr hl, Nat.add_zero] at hu
      exact hu

/-- mappages of a range of free places does not panic. -/
theorem mapLoop_returns (perm : Perm) (n : Nat) :
    ∀ (pt : PageTable) (k : Nat) (p : Page) (m : Mem), (k + n) * PGSIZE ≤ MAXVA →
      (∀ i, k ≤ vpn i → vpn i < k + n → pt.leaf i = none) →
      Returns (mapLoop pt (k * PGSIZE) p perm n) m fun _ _ => True := by
  induction n with
  | zero =>
    intro pt k p m _ _
    exact Returns.pure trivial
  | succ n ih =>
    intro pt k p m hbelow hfree
    have hva : k * PGSIZE < MAXVA := by
      simp only [PGSIZE] at hbelow ⊢
      omega
    have hvpn := vpn_page hva
    refine Returns.bind (walk_returns pt hva m) ?_
    rintro ⟨pt', r⟩ m' ⟨-, hl, -, hr, -⟩
    rcases hr with rfl | ⟨rfl, hreach⟩
    · exact Returns.pure trivial
    have hnone : pt'.leaf (index (k * PGSIZE)) = none := by
      rw [hl]
      exact hfree _ (by omega) (by omega)
    have hnot : ¬(pt'.leaf (index (k * PGSIZE))).isSome = true := by
      rw [hnone]
      simp
    simp only [if_neg hnot]
    rw [← Nat.succ_mul]
    refine ih _ (k + 1) (p + 1) m' ?_ fun i hi hi' => ?_
    · rw [Nat.add_right_comm]
      exact hbelow
    · have hne : i ≠ index (k * PGSIZE) := by
        intro hc
        rw [hc] at hi
        omega
      rw [PageTable.leaf_setLeaf hreach, Function.update_of_ne hne, hl]
      exact hfree i (by omega) (by omega)

/-- The pages of a range are unmapped, and each of them is one that kfree accepts if it is to be
freed. -/
structure Unmappable (pt : PageTable) (m : Mem) (a n : Nat) (doFree : Bool) : Prop where
  below : a + n ≤ MAXVA / PGSIZE
  mapped : ∀ i, a ≤ vpn i → vpn i < a + n → ∃ pte, pt.leaf i = some pte ∧ pte.perm.r = true
  user : doFree = true → a + n ≤ lastUser
  kernel : doFree = false → lastUser ≤ a
  frames : ∀ x, pt.user x ≤ m.frame x

theorem unmapLoop_returns (doFree : Bool) (n : Nat) :
    ∀ (pt : PageTable) (a : Nat) (m : Mem), Unmappable pt m a n doFree →
      Returns (unmapLoop pt (a * PGSIZE) doFree n) m fun pt' m' =>
        Same m m' ∧ (∀ x, pt'.tables x = pt.tables x) ∧
          (∀ x, m'.free x + pt'.user x = m.free x + pt.user x) ∧
          ∀ i, pt'.leaf i = if a ≤ vpn i ∧ vpn i < a + n then none else pt.leaf i := by
  induction n with
  | zero =>
    intro pt a m h
    refine Returns.pure ⟨.refl m, fun x => rfl, fun x => rfl, fun i => ?_⟩
    rw [if_neg (by omega)]
  | succ n ih =>
    intro pt a m h
    have hb := h.below
    have hva : a * PGSIZE < MAXVA := by
      simp only [PGSIZE] at hb ⊢
      omega
    have hvpn := vpn_page hva
    obtain ⟨pte, hleaf, hr⟩ := h.mapped (index (a * PGSIZE)) (by omega) (by omega)
    have hreach : pt.Reached (index (a * PGSIZE)) :=
      PageTable.reached_of_leaf (by rw [hleaf]; rfl)
    have hperm : pte.perm ≠ ⟨false, false, false, false⟩ := by
      intro hp
      rw [hp] at hr
      cases hr
    have hown : ∀ x, (pt.setLeaf (index (a * PGSIZE)) none).user x +
        ownLeaf x (index (a * PGSIZE)) (some pte) = pt.user x := by
      intro x
      have hu := PageTable.user_setLeaf hreach none x
      have h0 : ownLeaf x (index (a * PGSIZE)) none = 0 := by simp [ownLeaf]
      rw [hleaf, h0, Nat.add_zero] at hu
      exact hu
    -- what the rest of the loop starts from, once this page is freed or kept
    have hrest : ∀ m', Same m m' →
        Unmappable (pt.setLeaf (index (a * PGSIZE)) none) m' (a + 1) n doFree := by
      intro m' hs
      refine ⟨by omega, ?_, fun hd => by have := h.user hd; omega,
        fun hd => by have := h.kernel hd; omega, ?_⟩
      · intro i h1 h2
        have hne : i ≠ index (a * PGSIZE) := fun hc => by rw [hc] at h1; omega
        rw [PageTable.leaf_setLeaf hreach, Function.update_of_ne hne]
        exact h.mapped i (by omega) (by omega)
      · intro x
        have := h.frames x
        have := hown x
        rw [hs.frame]
        omega
    have hleafs : ∀ i, (if a + 1 ≤ vpn i ∧ vpn i < a + 1 + n then none
        else (pt.setLeaf (index (a * PGSIZE)) none).leaf i) =
        if a ≤ vpn i ∧ vpn i < a + (n + 1) then none else pt.leaf i := by
      intro i
      rw [PageTable.leaf_setLeaf hreach]
      by_cases hi : i = index (a * PGSIZE)
      · subst hi
        rw [Function.update_self, if_neg (by omega), if_pos (by omega)]
      · have hne : vpn i ≠ a := fun hc => hi (vpn_injective (hc.trans hvpn.symm))
        rw [Function.update_of_ne hi]
        by_cases hr : a + 1 ≤ vpn i ∧ vpn i < a + 1 + n
        · rw [if_pos hr, if_pos (by omega)]
        · rw [if_neg hr, if_neg (by omega)]
    refine Returns.bind_ok (walk_reached hreach hva false m) ?_
    simp only [hleaf, if_neg hperm]
    rw [← Nat.succ_mul]
    cases doFree with
    | false =>
      have h0 : ∀ x, ownLeaf x (index (a * PGSIZE)) (some pte) = 0 := by
        intro x
        rw [ownLeaf, if_neg (by have := h.kernel rfl; omega)]
      refine (ih _ _ m (hrest m (.refl m))).mono ?_
      rintro pt' m' ⟨hs, ht, hf, hl⟩
      refine ⟨hs, fun x => ?_, fun x => ?_, fun i => ?_⟩
      · rw [ht x, PageTable.tables_setLeaf hreach]
      · have := hf x
        have := hown x
        have := h0 x
        omega
      · rw [hl i, hleafs i]
    | true =>
      have h1 : ∀ x, ownLeaf x (index (a * PGSIZE)) (some pte) = hit pte.page x := by
        intro x
        rw [ownLeaf, if_pos (by have := h.user rfl; omega)]
        rfl
      have hframe : m.frame pte.page = 1 := by
        have := h.frames pte.page
        have := hown pte.page
        have := h1 pte.page
        have := hit_self pte.page
        have := m.frame_le pte.page
        omega
      refine Returns.bind (kfree_returns hframe) ?_
      rintro - m' ⟨hs', hf'⟩
      refine (ih _ _ m' (hrest m' hs')).mono ?_
      rintro pt' m'' ⟨hs, ht, hf, hl⟩
      refine ⟨hs'.trans hs, fun x => ?_, fun x => ?_, fun i => ?_⟩
      · rw [ht x, PageTable.tables_setLeaf hreach]
      · have := hf x
        have := hf' x
        have := hown x
        have := h1 x
        omega
      · rw [hl i, hleafs i]

theorem uvmunmap_returns {pt : PageTable} {a n : Nat} {doFree : Bool} {m : Mem}
    (h : Unmappable pt m a n doFree) :
    Returns (uvmunmap pt (a * PGSIZE) n doFree) m fun pt' m' =>
      Same m m' ∧ (∀ x, pt'.tables x = pt.tables x) ∧
        (∀ x, m'.free x + pt'.user x = m.free x + pt.user x) ∧
        ∀ i, pt'.leaf i = if a ≤ vpn i ∧ vpn i < a + n then none else pt.leaf i := by
  have hal : ¬(a * PGSIZE % PGSIZE ≠ 0) := by simp
  rw [uvmunmap, if_neg hal]
  exact unmapLoop_returns doFree n pt a m h

end Xv6.Memory
