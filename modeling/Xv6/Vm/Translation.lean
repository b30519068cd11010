import Xv6.Vm.Mapping

/-! # Page tables as finite maps

What mappages and uvmunmap do to the translation of each address.
-/

namespace Xv6.Vm

open Xv6.Framework
open Xv6.Memory (Perm PageTable Mem)

variable {r r' : Machine} {root p : Page} {i : Index} {va k n : Nat} {perm : UInt64}

/-- The physical page and the flags that an address is mapped to. -/
def translation (r : Machine) (root : Page) (va : Nat) : Option (Nat × UInt64) :=
  if pteOf r root va &&& PTE_V ≠ 0 then some (PTE2PA (pteOf r root va), PTE_FLAGS (pteOf r root va))
  else none

/-- No two pages have the same entry. -/
def PtesDistinct (r : Machine) (root : Page) : Prop :=
  ∀ va < MAXVA, ∀ va' < MAXVA, ∀ addr, walk (root * PGSIZE) va false r = .ok (some addr, r) →
    walk (root * PGSIZE) va' false r = .ok (some addr, r) → va / PGSIZE = va' / PGSIZE

theorem ptesDistinct (hap : Apart r.mem (tableAt r.ram root)) : PtesDistinct r root := by
  intro va hva va' hva' addr h h'
  rw [walk_lookup r root hva] at h
  rw [walk_lookup r root hva'] at h'
  have hi := slotOf_inj hap.distinct (Prod.mk.inj (Except.ok.inj h)).1
    (Prod.mk.inj (Except.ok.inj h')).1
  rw [← Memory.vpn_index hva, ← Memory.vpn_index hva', hi]

theorem translation_eq (r : Machine) (root : Page) (hva : va < MAXVA) :
    translation r root va =
      if pteAt r.ram root (index va) &&& PTE_V ≠ 0 then
        some (PTE2PA (pteAt r.ram root (index va)), PTE_FLAGS (pteAt r.ram root (index va)))
      else none := by
  rw [translation, pteOf_below r root hva]

/-- The pages of a range are given out, and none of them is a page of the table. -/
def Taken (m : Mem) (pt : PageTable) (p : Page) (n : Nat) : Prop :=
  ∀ j < n, m.frame (p + j) = 1 ∧ m.free (p + j) + pt.tables (p + j) = 0

/-- After mappages the pages of the range stand in it once each. -/
theorem dropped_mapped {pt : PageTable} {perm : Perm} {p : Nat}
    (h : ∀ i, k ≤ vpn i → vpn i < k + n → pt.leaf i = some ⟨p + (vpn i - k), perm⟩) (x : Nat) :
    dropped pt k n x ≤ 1 ∧ (dropped pt k n x ≠ 0 → ∃ j < n, x = p + j) := by
  have hterm : ∀ i, (if k ≤ vpn i ∧ vpn i < k + n then
      (pt.leaf i).elim 0 (fun pte => hit pte.page x) else 0) =
      if k ≤ vpn i ∧ vpn i < k + n ∧ x = p + (vpn i - k) then 1 else 0 := by
    intro i
    by_cases hr : k ≤ vpn i ∧ vpn i < k + n
    · rw [if_pos hr, h i hr.1 hr.2, Option.elim_some]
      exact if_congr ⟨fun he => ⟨hr.1, hr.2, he.symm⟩, fun hc => hc.2.2.symm⟩ rfl rfl
    · rw [if_neg hr, if_neg (fun hc => hr ⟨hc.1, hc.2.1⟩)]
  simp only [dropped, hterm]
  by_cases hi : ∃ i, k ≤ vpn i ∧ vpn i < k + n ∧ x = p + (vpn i - k)
  · obtain ⟨i, h1, h2, h3⟩ := hi
    rw [Finset.sum_eq_single i, if_pos ⟨h1, h2, h3⟩]
    · exact ⟨le_rfl, fun _ => ⟨vpn i - k, by omega, h3⟩⟩
    · intro j _ hj
      refine if_neg fun hc => hj (Memory.vpn_injective ?_)
      omega
    · intro hmem
      exact absurd (Finset.mem_univ i) hmem
  · rw [Finset.sum_eq_zero fun i _ => if_neg fun hc => hi ⟨i, hc⟩]
    exact ⟨Nat.zero_le 1, fun hne => absurd rfl hne⟩

/-- The translation after mappages has returned 0. -/
theorem translation_mapped (hperm : perm.toNat < 2 ^ 10) (hpa : (p + n) * PGSIZE ≤ 2 ^ 56)
    (hbelow : (k + n) * PGSIZE ≤ MAXVA)
    (hpte : pteAt r'.ram root = mapped (pteAt r.ram root) k p perm n) :
    (∀ j < n, translation r' root ((k + j) * PGSIZE) = some ((p + j) * PGSIZE, perm ||| PTE_V)) ∧
      ∀ va < MAXVA, va / PGSIZE < k ∨ k + n ≤ va / PGSIZE →
        translation r' root va = translation r root va := by
  constructor
  · intro j hj
    have hk : (k + j + 1) * PGSIZE ≤ MAXVA :=
      (Nat.mul_le_mul_right PGSIZE (show k + j + 1 ≤ k + n by omega)).trans hbelow
    have hlt : (p + j) * PGSIZE < 2 ^ 56 :=
      Nat.lt_of_lt_of_le (Nat.mul_lt_mul_of_pos_right (Nat.add_lt_add_left hj p) (by decide)) hpa
    have hentry : pteAt r'.ram root (index ((k + j) * PGSIZE)) =
        PA2PTE ((p + j) * PGSIZE) ||| perm ||| PTE_V := by
      rw [hpte, mapped, vpn_page hk, if_pos (by omega), Nat.add_sub_cancel_left]
    have hv : (PA2PTE ((p + j) * PGSIZE) ||| perm ||| PTE_V) &&& PTE_V ≠ 0 :=
      (pack_bit (k := 0) hlt hperm (by decide)).mpr (.inr rfl)
    rw [translation_eq r' root (page_lt hk), hentry, if_pos hv, PTE2PA_pack hlt hperm,
      flags_pack hlt hperm, Nat.mul_div_cancel _ (by decide)]
  · intro va hva hout
    have hentry : pteAt r'.ram root (index va) = pteAt r.ram root (index va) := by
      rw [hpte, mapped, Memory.vpn_index hva, if_neg (by omega)]
    rw [translation_eq r' root hva, translation_eq r root hva, hentry]

/-- mappages on a range that is not mapped. -/
theorem mappages_range (hap : Apart r.mem (tableAt r.ram root)) (hn : 0 < n)
    (hperm : perm.toNat < 2 ^ 10) (hpa : (p + n) * PGSIZE ≤ 2 ^ 56)
    (hbelow : (k + n) * PGSIZE ≤ MAXVA)
    (hfree : ∀ i, k ≤ vpn i → vpn i < k + n → pteAt r.ram root i &&& PTE_V = 0) :
    Returns (mappages (root * PGSIZE) (k * PGSIZE) (n * PGSIZE) (p * PGSIZE) perm) r fun e r' =>
      Moved r root r' ∧ (e = true → pteAt r'.ram root = mapped (pteAt r.ram root) k p perm n) := by
  have hnone : ∀ i, k ≤ vpn i → vpn i < k + n → (tableAt r.ram root).leaf i = none := by
    intro i h1 h2
    rw [leaf_tableAt, view, if_neg (not_not.mpr (hfree i h1 h2))]
  have hsize : n * PGSIZE ≠ 0 := Nat.mul_ne_zero hn.ne' (by decide)
  rw [mappages, if_neg (by simp), if_neg (by simp), if_neg hsize, Nat.mul_div_cancel n (by decide)]
  refine ((mapLoop_refines hperm n k p r hap hpa).returns
    (Memory.mapLoop_returns _ n _ k p r.mem hbelow hnone)).mono ?_
  rintro e r' ⟨t, ⟨hm, -, -, l, -, hl, hpte⟩, -⟩
  refine ⟨hm, fun he => ?_⟩
  rw [hpte, hl he]

/-- uvmunmap after mappages. -/
theorem uvmunmap_range {doFree : Bool} (hap : Apart r.mem (tableAt r.ram root))
    (hperm : perm.toNat < 2 ^ 10) (hflag : perm ||| PTE_V ≠ PTE_V)
    (hpa : (p + n) * PGSIZE ≤ 2 ^ 56) (hbelow : (k + n) * PGSIZE ≤ MAXVA)
    (htaken : doFree = true → Taken r.mem (tableAt r.ram root) p n) (hm : Moved r root r')
    (hpte : pteAt r'.ram root = mapped (pteAt r.ram root) k p perm n) :
    Returns (uvmunmap (root * PGSIZE) (k * PGSIZE) n doFree) r' fun _ r'' =>
      Apart r''.mem (tableAt r''.ram root) ∧
        pteAt r''.ram root = unmapped (pteAt r'.ram root) k n := by
  have hlt : ∀ i, k ≤ vpn i → vpn i < k + n → (p + (vpn i - k)) * PGSIZE < 2 ^ 56 := by
    intro i h1 h2
    refine Nat.lt_of_lt_of_le (Nat.mul_lt_mul_of_pos_right (Nat.add_lt_add_left ?_ p) (by decide)) hpa
    omega
  have hentry : ∀ i, k ≤ vpn i → vpn i < k + n →
      pteAt r'.ram root i = PA2PTE ((p + (vpn i - k)) * PGSIZE) ||| perm ||| PTE_V := by
    intro i h1 h2
    rw [hpte, mapped, if_pos ⟨h1, h2⟩]
  have hleaf : ∀ i, k ≤ vpn i → vpn i < k + n →
      (tableAt r'.ram root).leaf i = some ⟨p + (vpn i - k), permOf perm⟩ := by
    intro i h1 h2
    rw [leaf_tableAt, hentry i h1 h2, view_pack (hlt i h1 h2) hperm,
      Nat.mul_div_cancel _ (by decide)]
  have hdrop : Droppable r'.mem (tableAt r'.ram root) doFree k n := by
    intro x
    have hx := (hm.apart hap) x
    cases doFree with
    | false =>
      rw [if_neg Bool.false_ne_true, Nat.add_zero]
      exact hx
    | true =>
      obtain ⟨h1, hin⟩ := dropped_mapped hleaf x
      rw [if_pos rfl]
      by_cases hz : dropped (tableAt r'.ram root) k n x = 0
      · rw [hz, Nat.add_zero]
        exact hx
      · obtain ⟨j, hj, rfl⟩ := hin hz
        obtain ⟨hframe, hnone⟩ := htaken rfl j hj
        rw [hm.count, hm.same.frame]
        omega
  rw [uvmunmap, if_neg (by simp)]
  refine (unmapLoop_returns doFree n k r' hdrop hbelow fun i h1 h2 => ?_).mono ?_
  · rw [hentry i h1 h2, flags_pack (hlt i h1 h2) hperm]
    exact ⟨(pack_bit (k := 0) (hlt i h1 h2) hperm (by decide)).mpr (.inr rfl), hflag⟩
  · rintro - r'' hd
    refine ⟨fun x => ?_, hd.pte⟩
    rw [hd.free, hd.tables, hd.same.frame]
    have hx := hdrop x
    omega

theorem exists_page {a : Nat} (h : a % PGSIZE = 0) : ∃ k, a = k * PGSIZE :=
  ⟨a / PGSIZE, (Nat.div_mul_cancel (Nat.dvd_of_mod_eq_zero h)).symm⟩

theorem range_iff {a k n : Nat} :
    k * PGSIZE ≤ a ∧ a < (k + n) * PGSIZE ↔ k ≤ a / PGSIZE ∧ a / PGSIZE < k + n := by
  rw [Nat.le_div_iff_mul_le (by decide), Nat.div_lt_iff_lt_mul (by decide)]

theorem translation_none (h : translation r root va = none) (hva : va < MAXVA) :
    pteAt r.ram root (index va) &&& PTE_V = 0 := by
  rw [translation_eq r root hva] at h
  by_contra hv
  rw [if_pos hv] at h
  cases h

theorem entries_free (hbelow : (k + n) * PGSIZE ≤ MAXVA)
    (hfree : ∀ a, k * PGSIZE ≤ a → a < (k + n) * PGSIZE → translation r root a = none) :
    ∀ i, k ≤ vpn i → vpn i < k + n → pteAt r.ram root i &&& PTE_V = 0 := by
  intro i h1 h2
  have hlt : vpn i * PGSIZE < (k + n) * PGSIZE := Nat.mul_lt_mul_of_pos_right h2 (by decide)
  have hnone := translation_none (hfree (vpn i * PGSIZE) (Nat.mul_le_mul_right _ h1) hlt)
    (Nat.lt_of_lt_of_le hlt hbelow)
  rw [Memory.index_page rfl (Nat.lt_of_lt_of_le hlt hbelow)] at hnone
  exact hnone

/-- A page table is a finite map from pages to physical pages with flags: mappages adds a range to
it, uvmunmap takes the range out again, and no two pages share an entry. -/
theorem pagetable_finite_map {va size pa : Nat} (hap : Apart r.mem (tableAt r.ram root))
    (hva : va % PGSIZE = 0) (hsize : size % PGSIZE = 0) (hmax : va + size ≤ MAXVA)
    (hpa : pa % PGSIZE = 0) (hphys : pa + size ≤ 2 ^ 56) (hperm : perm.toNat < 2 ^ 10)
    (hfree : ∀ a, va ≤ a → a < va + size → translation r root a = none) :
    PtesDistinct r root ∧
      (size ≠ 0 → ∃ ok r', mappages (root * PGSIZE) va size pa perm r = .ok (ok, r')) ∧
      ∀ r', mappages (root * PGSIZE) va size pa perm r = .ok (true, r') →
        PtesDistinct r' root ∧
          (∀ j, j * PGSIZE < size →
            translation r' root (va + j * PGSIZE) = some (pa + j * PGSIZE, perm ||| PTE_V)) ∧
          (∀ a < MAXVA, a < va ∨ va + size ≤ a → translation r' root a = translation r root a) ∧
          (perm ||| PTE_V ≠ PTE_V → ∀ doFree,
            (doFree = true → Taken r.mem (tableAt r.ram root) (pa / PGSIZE) (size / PGSIZE)) →
            Returns (uvmunmap (root * PGSIZE) va (size / PGSIZE) doFree) r' fun _ r'' =>
              PtesDistinct r'' root ∧
                ∀ a < MAXVA, translation r'' root a = translation r root a) := by
  obtain ⟨k, rfl⟩ := exists_page hva
  obtain ⟨n, rfl⟩ := exists_page hsize
  obtain ⟨p, rfl⟩ := exists_page hpa
  rw [← Nat.add_mul] at hmax hphys
  rw [← Nat.add_mul] at hfree
  have hentries := entries_free hmax hfree
  have hruns := fun hn => mappages_range hap hn hperm hphys hmax hentries
  refine ⟨ptesDistinct hap, fun hn => ?_, fun r' hr => ?_⟩
  · obtain ⟨ok, r', hr, -⟩ := hruns (Nat.pos_of_mul_pos_right (Nat.pos_of_ne_zero hn))
    exact ⟨ok, r', hr⟩
  -- a size of 0 makes mappages panic
  have hn : 0 < n := by
    refine Nat.pos_of_ne_zero fun hz => ?_
    rw [hz, Nat.zero_mul, mappages, if_neg (by simp)] at hr
    cases hr
  obtain ⟨ok, r₁, hr₁, hm, hpte⟩ := hruns hn
  rw [hr] at hr₁
  cases hr₁
  have hpte := hpte rfl
  obtain ⟨hin, hout⟩ := translation_mapped hperm hphys hmax hpte
  refine ⟨ptesDistinct (hm.apart hap), fun j hj => ?_, fun a ha hrange => ?_,
    fun hflag doFree htaken => ?_⟩
  · rw [← Nat.add_mul, ← Nat.add_mul]
    exact hin j (Nat.lt_of_mul_lt_mul_right hj)
  · refine hout a ha ?_
    have hr := range_iff (a := a) (k := k) (n := n)
    rw [← Nat.add_mul] at hrange
    omega
  · rw [Nat.mul_div_cancel n (by decide)] at htaken ⊢
    rw [Nat.mul_div_cancel p (by decide)] at htaken
    refine (uvmunmap_range hap hperm hflag hphys hmax htaken hm hpte).mono ?_
    rintro - r'' ⟨hap'', hpte''⟩
    refine ⟨ptesDistinct hap'', fun a ha => ?_⟩
    rw [translation_eq r'' root ha, translation_eq r root ha, hpte'', unmapped, hpte, mapped]
    by_cases hr : k ≤ vpn (index a) ∧ vpn (index a) < k + n
    · rw [if_pos hr, if_neg (not_not.mpr UInt64.zero_and),
        if_neg (not_not.mpr (hentries _ hr.1 hr.2))]
    · rw [if_neg hr, if_neg hr]

/-- A memory with an empty page table in its first page and five free pages. -/
def bare : Machine := ⟨⟨524288, 524287, [524289, 524290, 524293, 524294, 524295], []⟩, fun _ => 0⟩

theorem bare_table : tableAt bare.ram 524288 = .cleared 524288 := clears_upper fun _ _ => rfl

theorem bare_apart : Apart bare.mem (tableAt bare.ram 524288) := by
  have hone : ∀ x ∈ 524288 :: bare.mem.freelist,
      bare.mem.free x + hit 524288 x ≤ bare.mem.frame x := by decide
  intro x
  rw [bare_table, PageTable.tables, Memory.Table.weigh_cleared]
  by_cases hx : x ∈ 524288 :: bare.mem.freelist
  · exact hone x hx
  · have hfree : bare.mem.free x = 0 :=
      List.count_eq_zero.mpr fun h => hx (List.mem_cons_of_mem _ h)
    have hhit : hit 524288 x = 0 := if_neg fun h => hx (List.mem_cons.mpr (.inl h.symm))
    rw [hfree, hhit]
    exact Nat.zero_le _

theorem bare_free (i : Index) : pteAt bare.ram 524288 i &&& PTE_V = 0 := by
  rw [pteAt, bare_table]
  exact UInt64.zero_and

theorem bare_maps (hperm : perm.toNat < 2 ^ 10) :
    ∃ r', mappages (524288 * PGSIZE) 0 PGSIZE (524291 * PGSIZE) perm bare = .ok (true, r') := by
  have hleaf : (tableAt bare.ram 524288).leaf (index 0) = none := by
    rw [leaf_tableAt, view, if_neg (not_not.mpr (bare_free _))]
  have hmap := mappages_refines (k := 0) (n := 1) (p := 524291) bare_apart hperm (by decide)
  obtain ⟨ok, r', hr, t, ⟨-, -, hok, -⟩, -, -, -, hample⟩ := hmap.returns
    (Memory.mappages_returns _ (show 0 < MAXVA by decide) rfl hleaf bare.mem)
  have htrue := (hample 0 ⟨fun b hb => absurd hb List.not_mem_nil, by decide⟩).1
  rw [hok, htrue] at hr
  exact ⟨r', hr⟩

/-- After a mapping without flags uvmunmap takes the entry for one that is not a leaf. -/
theorem uvmunmap_without_flags :
    ∃ r', mappages (524288 * PGSIZE) 0 PGSIZE (524291 * PGSIZE) 0 bare = .ok (true, r') ∧
      uvmunmap (524288 * PGSIZE) 0 1 false r' = .error .uvmunmapNotALeaf := by
  have hzero : UInt64.toNat 0 < 2 ^ 10 := by decide
  have hlt : 524291 * PGSIZE < 2 ^ 56 := by decide
  obtain ⟨r', hr⟩ := bare_maps hzero
  refine ⟨r', hr, ?_⟩
  have hrange := mappages_range (k := 0) (n := 1) (p := 524291) bare_apart Nat.one_pos hzero
    (by decide) (by decide) fun i _ _ => bare_free i
  rw [Nat.zero_mul, Nat.one_mul] at hrange
  obtain ⟨ok, r₁, hr₁, -, hpte⟩ := hrange
  rw [hr] at hr₁
  cases hr₁
  have hentry : pteAt r'.ram 524288 (index (0 * PGSIZE)) = PA2PTE (524291 * PGSIZE) ||| 0 ||| PTE_V := by
    rw [hpte rfl, mapped, vpn_page (by decide), if_pos (by decide)]
  have hv : pteAt r'.ram 524288 (index (0 * PGSIZE)) &&& PTE_V ≠ 0 := by
    rw [hentry]
    exact (pack_bit (k := 0) hlt hzero (by decide)).mpr (.inr rfl)
  have hflags : PTE_FLAGS (pteAt r'.ram 524288 (index (0 * PGSIZE))) = PTE_V := by
    rw [hentry, flags_pack hlt hzero]
    rfl
  obtain ⟨addr, hslot, hwalk⟩ := walk_slot (by decide) hv
  have hload : load64 addr r' = .ok (pteAt r'.ram 524288 (index (0 * PGSIZE)), r') := by
    rw [pteAt_slot hslot]
    rfl
  rw [Nat.zero_mul] at hwalk
  rw [uvmunmap, if_neg (by decide), unmapLoop, run_bind hwalk]
  dsimp only
  rw [run_bind hload, if_neg hv, if_pos hflags]
  rfl

/-- The hypotheses hold for a page of the empty table. -/
theorem pagetable_finite_map_bare :
    ∃ r', mappages (524288 * PGSIZE) 0 PGSIZE (524291 * PGSIZE) PTE_R bare = .ok (true, r') ∧
      translation r' 524288 0 = some (524291 * PGSIZE, PTE_R ||| PTE_V) := by
  obtain ⟨r', hr⟩ := bare_maps (show PTE_R.toNat < 2 ^ 10 by decide)
  have hnone : ∀ a, 0 ≤ a → a < 0 + PGSIZE → translation bare 524288 a = none := by
    intro a _ ha
    have ha : a < MAXVA := Nat.lt_trans ha (by decide)
    rw [translation_eq bare 524288 ha, if_neg (not_not.mpr (bare_free _))]
  have h := (pagetable_finite_map bare_apart rfl rfl (by decide) (by decide) (by decide) (by decide)
    hnone).2.2 r' hr
  have h0 := h.2.1 0 (by decide)
  rw [Nat.zero_mul] at h0
  exact ⟨r', hr, h0⟩

end Xv6.Vm
