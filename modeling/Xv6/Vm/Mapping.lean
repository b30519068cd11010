import Xv6.Vm.Refine

/-! # mappages and uvmunmap

Both loops follow their counterparts on tables, and say which entries they write.
-/

namespace Xv6.Vm

open Xv6.Framework
open Xv6.Memory (Pte PageTable Mem)

variable {r r' : Machine} {a b : Bytes} {root : Page} {i : Index} {va : Nat} {perm : UInt64}

/-! ## Looking up -/

theorem descend_lookup (r : Machine) (p : Page) (j : Fin 512) :
    descend (p * PGSIZE) j false r = .ok ((next r.ram p j).map (· * PGSIZE), r) := by
  have hload : load64 (entryAddr (p * PGSIZE) j) r = .ok (word r.ram p j, r) := rfl
  rw [descend, run_bind hload]
  cases hn : next r.ram p j with
  | none =>
    rw [if_neg (next_eq_none hn)]
    rfl
  | some q =>
    obtain ⟨hbit, hpa⟩ := next_eq_some hn
    rw [if_pos hbit, hpa]
    rfl

/-- walk without alloc finds the entry in the table that memory holds. -/
theorem walk_lookup (r : Machine) (root : Page) (hva : va < MAXVA) :
    walk (root * PGSIZE) va false r = .ok (slotOf (tableAt r.ram root) (index va), r) := by
  have hentry : (tableAt r.ram root).entry (Memory.PX 2 va) =
      (next r.ram root (Memory.PX 2 va)).map (midAt r.ram) := rfl
  rw [walk, if_neg (Nat.not_le.mpr hva), slotOf, index, hentry]
  rw [run_bind (descend_lookup r root _)]
  cases next r.ram root (Memory.PX 2 va) with
  | none => rfl
  | some q =>
    have hmid : (midAt r.ram q).entry (Memory.PX 1 va) =
        (next r.ram q (Memory.PX 1 va)).map (lowAt r.ram) := rfl
    rw [Option.map_some, Option.map_some, Option.bind_some, hmid]
    dsimp only
    rw [run_bind (descend_lookup r q _)]
    cases next r.ram q (Memory.PX 1 va) with
    | none => rfl
    | some s => rfl

/-- The entry that walk finds for an address; 0 if there is none. -/
def pteOf (r : Machine) (root : Page) (a : Nat) : UInt64 :=
  match walk (root * PGSIZE) a false r with
  | .ok (some addr, _) => r.ram.u64 addr
  | _ => 0

theorem pteOf_below (r : Machine) (root : Page) (hva : va < MAXVA) :
    pteOf r root va = pteAt r.ram root (index va) := by
  rw [pteOf, walk_lookup r root hva, pteAt]
  cases slotOf (tableAt r.ram root) (index va) <;> rfl

theorem pteOf_above (r : Machine) (root : Page) (hva : MAXVA ≤ va) : pteOf r root va = 0 := by
  rw [pteOf, walk, if_pos hva]
  rfl

theorem pteOf_congr (h : pteAt r'.ram root = pteAt r.ram root) : pteOf r' root = pteOf r root := by
  funext a
  by_cases ha : a < MAXVA
  · rw [pteOf_below r' root ha, pteOf_below r root ha, h]
  · rw [pteOf_above r' root (Nat.not_lt.mp ha), pteOf_above r root (Nat.not_lt.mp ha)]

theorem walk_find (hap : Apart r.mem (tableAt r.ram root)) :
    Refines Machine.mem (walk (root * PGSIZE) va false) (Memory.walk (tableAt r.ram root) va false) r
      fun e t r' => r' = r ∧ va < MAXVA ∧ t.1 = tableAt r.ram root ∧
        (e = none ∧ t.2 = none ∨ e = slotOf (tableAt r.ram root) (index va) ∧
          t.2 = some (index va) ∧ (tableAt r.ram root).Reached (index va)) := by
  intro t m h
  obtain ⟨e, r', hr, hm, hva, -, htable, ht⟩ := walk_refines hap t m h
  have hlook := walk_lookup r root hva
  rw [hr] at hlook
  obtain ⟨-, rfl⟩ := Prod.mk.inj (Except.ok.inj hlook)
  rw [← htable] at ht
  exact ⟨e, r', hr, hm, rfl, hva, htable.symm, ht⟩

/-! ## Storing -/

def Machine.store (r : Machine) (addr : Nat) (v : UInt64) : Machine :=
  { r with ram := r.ram.setU64 addr v }

def Machine.move (r : Machine) (dst : Nat) (src : Bytes) (n : Nat) : Machine :=
  { r with ram := r.ram.copy dst n src }

theorem memmove_eq (dst : Nat) (src : Bytes) (n : Nat) (r : Machine) :
    memmove dst src n r = .ok ((), r.move dst src n) := rfl

theorem memset_eq (dst : Nat) (c : UInt8) (n : Nat) (r : Machine) :
    memset dst c n r = .ok ((), r.move dst (fun _ => c) n) := rfl

theorem move_inside {f : Bytes} {dst n j : Nat} (hj : j < n) : (r.move dst f n).ram (dst + j) = f j :=
  Bytes.copy_inside hj

section Store

variable {addr : Nat}

theorem store64_eq (addr : Nat) (v : UInt64) (r : Machine) :
    store64 addr v r = .ok ((), r.store addr v) := rfl

theorem moved_store (hap : Apart r.mem (tableAt r.ram root))
    (hs : slotOf (tableAt r.ram root) i = some addr) (v : UInt64) :
    Moved r root (r.store addr v) := by
  have htable : tableAt (r.store addr v).ram root = (tableAt r.ram root).setLeaf i (view v) :=
    tableAt_store hap.distinct hs v
  refine ⟨.refl _, fun x => ?_, ?_⟩
  · rw [htable, PageTable.tables_setLeaf (reached_of_slotOf hs)]
    rfl
  · obtain ⟨s, rfl, hpage, -⟩ := slotOf_page hap.distinct hs
    refine (off_setU64 i.2.2 v).mono ?_
    rintro x rfl
    rw [Spare]
    omega

end Store

/-! ## mappages -/

/-- The entries after `n` pages are mapped from page `a` on to the pages from `p` on. -/
def mapped (f : Index → UInt64) (a : Nat) (p : Page) (perm : UInt64) (n : Nat) (i : Index) : UInt64 :=
  if a ≤ vpn i ∧ vpn i < a + n then PA2PTE ((p + (vpn i - a)) * PGSIZE) ||| perm ||| PTE_V else f i

theorem mapped_zero (f : Index → UInt64) (k : Nat) (p : Page) (perm : UInt64) :
    mapped f k p perm 0 = f := by
  funext i
  rw [mapped, if_neg (by omega)]

theorem mapped_succ {f : Index → UInt64} {k n p : Nat} (hi : vpn i = k) :
    mapped (update f i (PA2PTE (p * PGSIZE) ||| perm ||| PTE_V)) (k + 1) (p + 1) perm n =
      mapped f k p perm (n + 1) := by
  funext j
  rw [mapped, mapped]
  by_cases hj : j = i
  · rw [hj, hi, update_self, if_neg (by omega), if_pos (by omega), Nat.sub_self,
      Nat.add_zero]
  · have hne : vpn j ≠ k := fun hk => hj (Memory.vpn_injective (hk.trans hi.symm))
    rw [update_of_ne hj]
    by_cases hr : k + 1 ≤ vpn j ∧ vpn j < k + 1 + n
    · rw [if_pos hr, if_pos (by omega), show p + 1 + (vpn j - (k + 1)) = p + (vpn j - k) by omega]
    · rw [if_neg hr, if_neg (by omega)]

theorem mapLoop_refines (hperm : perm.toNat < 2 ^ 10) (n : Nat) :
    ∀ (k : Nat) (p : Page) (r : Machine), Apart r.mem (tableAt r.ram root) →
      (p + n) * PGSIZE ≤ 2 ^ 56 →
      Refines Machine.mem (mapLoop (root * PGSIZE) (k * PGSIZE) (p * PGSIZE) perm n)
        (Memory.mapLoop (tableAt r.ram root) (k * PGSIZE) p (permOf perm) n) r fun e t r' =>
          Moved r root r' ∧ tableAt r'.ram root = t.1 ∧ e = t.2 ∧ ∃ l ≤ n, (e = true → l = n) ∧
            pteAt r'.ram root = mapped (pteAt r.ram root) k p perm l := by
  induction n with
  | zero =>
    intro k p r hap _
    refine Refines.pure ⟨.refl r root, rfl, rfl, 0, le_rfl, fun _ => rfl, ?_⟩
    rw [mapped_zero]
  | succ n ih =>
    intro k p r hap hp
    refine Refines.bind (walk_refines hap) ?_
    rintro e ⟨pt, t⟩ r₁ ⟨hva, hg, htable, ht⟩
    simp only at htable ht
    rcases ht with ⟨rfl, rfl⟩ | ⟨rfl, rfl, hreach⟩
    · refine Refines.pure ⟨hg.toMoved, htable, rfl, 0, Nat.zero_le _, by simp, ?_⟩
      rw [mapped_zero, hg.pte]
    obtain ⟨addr, hslot⟩ := slotOf_reached hreach
    rw [← htable] at hslot hreach
    rw [← htable, hslot]
    have hap₁ := hg.apart hap
    have hload : load64 addr r₁ = .ok (pteAt r₁.ram root (index (k * PGSIZE)), r₁) := by
      rw [pteAt_slot hslot]
      rfl
    refine Refines.step hload rfl ?_
    dsimp only
    rw [leaf_tableAt]
    by_cases hv : pteAt r₁.ram root (index (k * PGSIZE)) &&& PTE_V ≠ 0
    · rw [if_pos hv, if_pos (by rw [view, if_pos hv]; rfl)]
      intro b u h
      cases h
    rw [if_neg hv, if_neg (by rw [view, if_neg hv]; simp)]
    have hpa : p * PGSIZE < 2 ^ 56 := by
      refine Nat.lt_of_lt_of_le (Nat.mul_lt_mul_of_pos_right ?_ (by decide)) hp
      exact Nat.lt_add_of_pos_right n.succ_pos
    have hview : view (PA2PTE (p * PGSIZE) ||| perm ||| PTE_V) = some ⟨p, permOf perm⟩ := by
      rw [view_pack hpa hperm, Nat.mul_div_cancel p (by decide)]
    have hm := moved_store hap₁ hslot (PA2PTE (p * PGSIZE) ||| perm ||| PTE_V)
    have hset : tableAt (r₁.store addr (PA2PTE (p * PGSIZE) ||| perm ||| PTE_V)).ram root =
        (tableAt r₁.ram root).setLeaf (index (k * PGSIZE)) (some ⟨p, permOf perm⟩) := by
      rw [← hview]
      exact tableAt_store hap₁.distinct hslot _
    have hpte : pteAt (r₁.store addr (PA2PTE (p * PGSIZE) ||| perm ||| PTE_V)).ram root =
        update (pteAt r.ram root) (index (k * PGSIZE))
          (PA2PTE (p * PGSIZE) ||| perm ||| PTE_V) := by
      rw [← hg.pte]
      exact pteAt_store hap₁.distinct hslot _
    refine Refines.step (store64_eq addr _ r₁) rfl ?_
    rw [← hset, ← Nat.succ_mul, ← Nat.succ_mul]
    refine (ih (k + 1) (p + 1) _ (hm.apart hap₁) ?_).mono ?_
    · rw [Nat.add_right_comm]
      exact hp
    rintro e t r' ⟨hm', htable', he, l, hl, htrue, hpte'⟩
    refine ⟨hg.toMoved.trans (hm.trans hm'), htable', he, l + 1, by omega, ?_, ?_⟩
    · intro h
      rw [htrue h]
    · rw [hpte', hpte, mapped_succ]
      rw [Memory.vpn_page hva]

theorem mappages_refines {k n : Nat} {p : Page} (hap : Apart r.mem (tableAt r.ram root))
    (hperm : perm.toNat < 2 ^ 10) (hp : (p + n) * PGSIZE ≤ 2 ^ 56) :
    Refines Machine.mem (mappages (root * PGSIZE) (k * PGSIZE) (n * PGSIZE) (p * PGSIZE) perm)
      (Memory.mappages (tableAt r.ram root) (k * PGSIZE) (n * PGSIZE) p (permOf perm)) r
      fun e t r' => Moved r root r' ∧ tableAt r'.ram root = t.1 ∧ e = t.2 ∧
        ∃ l ≤ n, (e = true → l = n) ∧
          pteAt r'.ram root = mapped (pteAt r.ram root) k p perm l := by
  have hva : ¬(k * PGSIZE % PGSIZE ≠ 0) := by simp
  have hsize : ¬(n * PGSIZE % PGSIZE ≠ 0) := by simp
  rw [mappages, Memory.mappages, if_neg hva, if_neg hva, if_neg hsize, if_neg hsize,
    Nat.mul_div_cancel n (by decide)]
  by_cases hz : n * PGSIZE = 0
  · rw [if_pos hz, if_pos hz]
    intro b u h
    cases h
  · rw [if_neg hz, if_neg hz]
    exact mapLoop_refines hperm n k p r hap hp

/-! ## uvmunmap -/

/-- How often a page is mapped by the `n` pages from page `k` on. -/
def dropped (pt : PageTable) (k n : Nat) (x : Page) : Nat :=
  ∑ i, if k ≤ vpn i ∧ vpn i < k + n then (pt.leaf i).elim 0 (fun pte => hit pte.page x) else 0

theorem dropped_succ {pt : PageTable} {pte : Pte} {k : Nat} (hi : vpn i = k)
    (hleaf : pt.leaf i = some pte) (n : Nat) (x : Page) :
    dropped pt k (n + 1) x = hit pte.page x + dropped (pt.setLeaf i none) (k + 1) n x := by
  have hreach : pt.Reached i := PageTable.reached_of_leaf (by rw [hleaf]; rfl)
  have hsum := sum_update_add pt.leaf (fun j e => if k ≤ vpn j ∧ vpn j < k + (n + 1) then
    e.elim 0 (fun pte => hit pte.page x) else 0) i none
  rw [if_pos (by omega), if_pos (by omega), hleaf, Option.elim_some, Option.elim_none] at hsum
  have hrest : dropped (pt.setLeaf i none) (k + 1) n x = ∑ j, if k ≤ vpn j ∧ vpn j < k + (n + 1) then
      (update pt.leaf i none j).elim 0 (fun pte => hit pte.page x) else 0 := by
    rw [dropped, PageTable.leaf_setLeaf hreach]
    refine Finset.sum_congr rfl fun j _ => ?_
    by_cases hj : j = i
    · rw [hj, update_self, Option.elim_none, ite_self, ite_self]
    · have hne : vpn j ≠ k := fun hk => hj (Memory.vpn_injective (hk.trans hi.symm))
      exact if_congr (by omega) rfl rfl
  rw [dropped]
  omega

/-- The pages of a range may be taken out of the table, and freed if `doFree` says so. -/
def Droppable (m : Mem) (pt : PageTable) (doFree : Bool) (k n : Nat) : Prop :=
  ∀ x, m.free x + pt.tables x + (if doFree then dropped pt k n x else 0) ≤ m.frame x

namespace Droppable

variable {m m' : Mem} {pt : PageTable} {doFree : Bool} {k n : Nat} {pte : Pte}

theorem apart (h : Droppable m pt doFree k n) : Apart m pt := by
  intro x
  have hx := h x
  omega

theorem outside (h : Droppable m pt true k (n + 1)) (hi : vpn i = k) (hleaf : pt.leaf i = some pte) :
    m.frame pte.page = 1 ∧ pt.tables pte.page = 0 := by
  have hx := h pte.page
  have hle := m.frame_le pte.page
  rw [if_pos rfl, dropped_succ hi hleaf, Memory.hit_self] at hx
  omega

theorem step (h : Droppable m pt doFree k (n + 1)) (hi : vpn i = k) (hleaf : pt.leaf i = some pte)
    (hs : Memory.Same m m')
    (hf : ∀ x, m'.free x = m.free x + if doFree then hit pte.page x else 0) :
    Droppable m' (pt.setLeaf i none) doFree (k + 1) n := by
  intro x
  have hx := h x
  rw [hf, hs.frame, PageTable.tables_setLeaf (PageTable.reached_of_leaf (by rw [hleaf]; rfl))]
  cases doFree with
  | false =>
    simp only [Bool.false_eq_true, if_false] at hx ⊢
    exact hx
  | true =>
    rw [if_pos rfl, dropped_succ hi hleaf] at hx
    rw [if_pos rfl, if_pos rfl]
    omega

end Droppable

/-- Pages that are not the table's may be overwritten. -/
theorem pteAt_off {P : Page → Prop} (hd : Distinct (tableAt a root)) (hoff : Off P a b)
    (hP : ∀ x, P x → (tableAt a root).tables x = 0) :
    tableAt b root = tableAt a root ∧ pteAt b root = pteAt a root := by
  have htable : tableAt b root = tableAt a root := local_table hoff hP
  refine ⟨htable, pteAt_grow hd hoff ?_ ?_⟩
  · intro s hs hne
    exact absurd (hP s hs) hne
  · intro k
    rw [htable]
    exact .inl rfl

/-- An entry with no flag but PTE_V has no permissions. -/
theorem permOf_flags {v : UInt64} (h : PTE_FLAGS v = PTE_V) :
    permOf v = ⟨false, false, false, false⟩ := by
  have hbit : ∀ c : UInt64, 0x3FF &&& c = c → v &&& c = PTE_V &&& c := by
    intro c hc
    rw [← h, PTE_FLAGS, UInt64.and_assoc, hc]
  rw [permOf, hbit PTE_R rfl, hbit PTE_W rfl, hbit PTE_X rfl, hbit PTE_U rfl]
  rfl

/-- The entries after `n` pages from page `k` on are unmapped. -/
def unmapped (f : Index → UInt64) (k n : Nat) (i : Index) : UInt64 :=
  if k ≤ vpn i ∧ vpn i < k + n then 0 else f i

theorem unmapped_zero (f : Index → UInt64) (k : Nat) : unmapped f k 0 = f := by
  funext i
  rw [unmapped, if_neg (by omega)]

theorem unmapped_succ {f : Index → UInt64} {k n : Nat} (hi : vpn i = k) :
    unmapped (update f i 0) (k + 1) n = unmapped f k (n + 1) := by
  funext j
  rw [unmapped, unmapped]
  by_cases hj : j = i
  · rw [hj, update_self, if_neg (by omega), if_pos (by omega)]
  · have hne : vpn j ≠ k := fun hk => hj (Memory.vpn_injective (hk.trans hi.symm))
    rw [update_of_ne hj]
    exact if_congr (by omega) rfl rfl

/-- What uvmunmap leaves. -/
structure Dropped (r : Machine) (root : Page) (doFree : Bool) (k n : Nat) (r' : Machine) : Prop where
  same : Memory.Same r.mem r'.mem
  tables : (tableAt r'.ram root).tables = (tableAt r.ram root).tables
  free : ∀ x, r'.mem.free x = r.mem.free x + if doFree then dropped (tableAt r.ram root) k n x else 0
  pte : pteAt r'.ram root = unmapped (pteAt r.ram root) k n
  off : Off (fun x => (tableAt r.ram root).tables x ≠ 0 ∨
    doFree = true ∧ dropped (tableAt r.ram root) k n x ≠ 0) r.ram r'.ram

theorem Dropped.zero (r : Machine) (root : Page) (doFree : Bool) (k : Nat) :
    Dropped r root doFree k 0 r := by
  refine ⟨.refl _, rfl, fun x => ?_, (unmapped_zero _ k).symm, .refl _ _⟩
  have hzero : dropped (tableAt r.ram root) k 0 x = 0 :=
    Finset.sum_eq_zero fun i _ => if_neg (by omega)
  rw [hzero, ite_self, Nat.add_zero]

section Drop

variable {doFree : Bool} {k n addr : Nat} {pte : Pte}

/-- One turn of uvmunmap: the page is freed, then its entry cleared. -/
theorem Droppable.turn (h : Droppable r.mem (tableAt r.ram root) doFree k (n + 1)) (hi : vpn i = k)
    (hleaf : (tableAt r.ram root).leaf i = some pte)
    (hslot : slotOf (tableAt r.ram root) i = some addr) (hr : Released r pte.page doFree r') :
    tableAt (r'.store addr 0).ram root = (tableAt r.ram root).setLeaf i none ∧
      pteAt (r'.store addr 0).ram root = update (pteAt r.ram root) i 0 ∧
      Droppable r'.mem (tableAt (r'.store addr 0).ram root) doFree (k + 1) n ∧
      ∀ r'', Dropped (r'.store addr 0) root doFree (k + 1) n r'' →
        Dropped r root doFree k (n + 1) r'' := by
  have hap := h.apart
  obtain ⟨htable, hpte⟩ := pteAt_off hap.distinct hr.off (by
    rintro x ⟨rfl, rfl⟩
    exact (h.outside hi hleaf).2)
  have hslot' : slotOf (tableAt r'.ram root) i = some addr := by
    rw [htable]
    exact hslot
  have hd : Distinct (tableAt r'.ram root) := by
    rw [htable]
    exact hap.distinct
  have hset : tableAt (r'.store addr 0).ram root = (tableAt r.ram root).setLeaf i none := by
    rw [← htable]
    exact tableAt_store hd hslot' 0
  have htables : (tableAt (r'.store addr 0).ram root).tables = (tableAt r.ram root).tables := by
    funext x
    rw [hset, PageTable.tables_setLeaf (reached_of_slotOf hslot)]
  have hstore : pteAt (r'.store addr 0).ram root = update (pteAt r.ram root) i 0 := by
    rw [← hpte]
    exact pteAt_store hd hslot' 0
  refine ⟨hset, hstore, ?_, fun r'' hd'' => ?_⟩
  · rw [hset]
    exact h.step hi hleaf hr.same hr.free
  · refine ⟨hr.same.trans hd''.same, hd''.tables.trans htables, fun x => ?_, ?_, ?_⟩
    · have h1 := hd''.free x
      have h2 : (r'.store addr 0).mem.free x = _ := hr.free x
      rw [h1, h2, hset, dropped_succ hi hleaf]
      split <;> omega
    · rw [hd''.pte, hstore, unmapped_succ hi]
    · obtain ⟨s, rfl, hs, -⟩ := slotOf_page hap.distinct hslot
      have hstore : Off (· = s) r'.ram (r'.store (entryAddr (s * PGSIZE) i.2.2) 0).ram :=
        off_setU64 i.2.2 0
      refine Off.trans (hr.off.mono ?_) (Off.trans (hstore.mono ?_) (hd''.off.mono ?_))
      · rintro x ⟨rfl, rfl⟩
        right
        rw [dropped_succ hi hleaf, Memory.hit_self]
        exact ⟨rfl, by omega⟩
      · rintro x rfl
        exact .inl hs
      · rintro x (hx | ⟨hf, hx⟩)
        · left
          rw [← htables]
          exact hx
        · right
          rw [hset] at hx
          rw [dropped_succ hi hleaf]
          exact ⟨hf, by omega⟩

end Drop

theorem unmapLoop_refines (doFree : Bool) (n : Nat) :
    ∀ (k : Nat) (r : Machine), Droppable r.mem (tableAt r.ram root) doFree k n →
      Refines Machine.mem (unmapLoop (root * PGSIZE) (k * PGSIZE) doFree n)
        (Memory.unmapLoop (tableAt r.ram root) (k * PGSIZE) doFree n) r fun _ t r' =>
          tableAt r'.ram root = t ∧ Dropped r root doFree k n r' := by
  induction n with
  | zero =>
    intro k r h
    exact Refines.pure ⟨rfl, .zero r root doFree k⟩
  | succ n ih =>
    intro k r h
    refine Refines.bind (walk_find h.apart) ?_
    rintro e ⟨pt, t⟩ r₁ ⟨rfl, hva, hpt, ht⟩
    simp only at hpt ht
    rcases ht with ⟨rfl, rfl⟩ | ⟨rfl, rfl, hreach⟩
    · intro b u hb
      cases hb
    obtain ⟨addr, hslot⟩ := slotOf_reached hreach
    have hi := Memory.vpn_page hva
    have hload : load64 addr r₁ = .ok (pteAt r₁.ram root (index (k * PGSIZE)), r₁) := by
      rw [pteAt_slot hslot]
      rfl
    rw [hpt, hslot]
    dsimp only
    cases hleaf : (tableAt r₁.ram root).leaf (index (k * PGSIZE)) with
    | none =>
      intro b u hb
      cases hb
    | some pte =>
      have hview : view (pteAt r₁.ram root (index (k * PGSIZE))) = some pte := by
        rw [← leaf_tableAt, hleaf]
      obtain ⟨hv, hpa, hperm⟩ := view_eq_some hview
      dsimp only
      by_cases hz : pte.perm = ⟨false, false, false, false⟩
      · rw [if_pos hz]
        intro b u hb
        cases hb
      have hflags : PTE_FLAGS (pteAt r₁.ram root (index (k * PGSIZE))) ≠ PTE_V :=
        fun hf => hz (hperm.trans (permOf_flags hf))
      have hrest : ∀ r₂, Released r₁ pte.page doFree r₂ →
          Refines Machine.mem (do store64 addr 0
                                  unmapLoop (root * PGSIZE) (k * PGSIZE + PGSIZE) doFree n)
            (Memory.unmapLoop ((tableAt r₁.ram root).setLeaf (index (k * PGSIZE)) none)
              (k * PGSIZE + PGSIZE) doFree n) r₂
            fun _ t r' => tableAt r'.ram root = t ∧ Dropped r₁ root doFree k (n + 1) r' := by
        intro r₂ hr
        obtain ⟨hset, -, hd, hback⟩ := h.turn hi hleaf hslot hr
        refine Refines.step (store64_eq addr 0 r₂) rfl ?_
        rw [← hset, ← Nat.succ_mul]
        refine (ih (k + 1) (r₂.store addr 0) hd).mono ?_
        rintro - t r' ⟨htable, hdrop⟩
        exact ⟨htable, hback r' hdrop⟩
      refine Refines.step hload rfl ?_
      rw [if_neg hv, if_neg hflags, if_neg hz]
      cases doFree with
      | false =>
        exact hrest r₁ (.refl r₁ pte.page)
      | true =>
        rw [hpa]
        refine Refines.bind (kfree_refines r₁ pte.page) ?_
        rintro - - r₂ hr
        exact hrest r₂ hr

theorem uvmunmap_refines {doFree : Bool} {k n : Nat}
    (h : Droppable r.mem (tableAt r.ram root) doFree k n) :
    Refines Machine.mem (uvmunmap (root * PGSIZE) (k * PGSIZE) n doFree)
      (Memory.uvmunmap (tableAt r.ram root) (k * PGSIZE) n doFree) r fun _ t r' =>
        tableAt r'.ram root = t ∧ Dropped r root doFree k n r' := by
  have hal : ¬(k * PGSIZE % PGSIZE ≠ 0) := by simp
  rw [uvmunmap, Memory.uvmunmap, if_neg hal, if_neg hal]
  exact unmapLoop_refines doFree n k r h

theorem page_lt {k : Nat} (hk : (k + 1) * PGSIZE ≤ MAXVA) : k * PGSIZE < MAXVA :=
  Nat.lt_of_lt_of_le (Nat.mul_lt_mul_of_pos_right k.lt_succ_self (by decide)) hk

theorem vpn_page {k : Nat} (hk : (k + 1) * PGSIZE ≤ MAXVA) : vpn (index (k * PGSIZE)) = k :=
  Memory.vpn_page (page_lt hk)

theorem walk_slot {k : Nat} (hk : (k + 1) * PGSIZE ≤ MAXVA)
    (hv : pteAt r.ram root (index (k * PGSIZE)) &&& PTE_V ≠ 0) :
    ∃ addr, slotOf (tableAt r.ram root) (index (k * PGSIZE)) = some addr ∧
      walk (root * PGSIZE) (k * PGSIZE) false r = .ok (some addr, r) := by
  cases hs : slotOf (tableAt r.ram root) (index (k * PGSIZE)) with
  | none =>
    rw [pteAt, hs] at hv
    exact absurd UInt64.zero_and hv
  | some addr =>
    refine ⟨addr, rfl, ?_⟩
    rw [walk_lookup r root (page_lt hk), hs]

/-- uvmunmap of pages that are mapped as leaves. -/
theorem unmapLoop_returns (doFree : Bool) (n : Nat) :
    ∀ (k : Nat) (r : Machine), Droppable r.mem (tableAt r.ram root) doFree k n →
      (k + n) * PGSIZE ≤ MAXVA →
      (∀ i, k ≤ vpn i → vpn i < k + n →
        pteAt r.ram root i &&& PTE_V ≠ 0 ∧ PTE_FLAGS (pteAt r.ram root i) ≠ PTE_V) →
      Returns (unmapLoop (root * PGSIZE) (k * PGSIZE) doFree n) r fun _ r' =>
        Dropped r root doFree k n r' := by
  induction n with
  | zero =>
    intro k r h _ _
    exact Returns.pure (.zero r root doFree k)
  | succ n ih =>
    intro k r h hbelow hleaves
    have hk : (k + 1) * PGSIZE ≤ MAXVA :=
      (Nat.mul_le_mul_right PGSIZE (show k + 1 ≤ k + (n + 1) by omega)).trans hbelow
    have hi := vpn_page hk
    obtain ⟨hv, hflags⟩ := hleaves (index (k * PGSIZE)) (by omega) (by omega)
    obtain ⟨addr, hslot, hwalk⟩ := walk_slot hk hv
    have hload : load64 addr r = .ok (pteAt r.ram root (index (k * PGSIZE)), r) := by
      rw [pteAt_slot hslot]
      rfl
    obtain ⟨pte, hview⟩ : ∃ pte, view (pteAt r.ram root (index (k * PGSIZE))) = some pte := by
      rw [view, if_pos hv]
      exact ⟨_, rfl⟩
    have hleaf : (tableAt r.ram root).leaf (index (k * PGSIZE)) = some pte := by
      rw [leaf_tableAt, hview]
    have hrest : ∀ r₁, Released r pte.page doFree r₁ →
        Returns (do store64 addr 0
                    unmapLoop (root * PGSIZE) (k * PGSIZE + PGSIZE) doFree n) r₁
          fun _ r' => Dropped r root doFree k (n + 1) r' := by
      intro r₁ hr
      obtain ⟨-, hpte, hd, hback⟩ := h.turn hi hleaf hslot hr
      refine Returns.bind_ok (store64_eq addr 0 r₁) ?_
      rw [← Nat.succ_mul]
      refine (ih (k + 1) (r₁.store addr 0) hd ?_ ?_).mono fun _ r' hdrop => hback r' hdrop
      · rw [Nat.add_right_comm]
        exact hbelow
      · intro j hj hj'
        have hne : j ≠ index (k * PGSIZE) := fun hc => by rw [hc] at hj; omega
        rw [hpte, update_of_ne hne]
        exact hleaves j (by omega) (by omega)
    refine Returns.bind_ok hwalk (Returns.bind_ok hload ?_)
    rw [if_neg hv, if_neg hflags]
    cases doFree with
    | false =>
      exact hrest r (.refl r pte.page)
    | true =>
      rw [(view_eq_some hview).2.1]
      refine Returns.bind ((kfree_refines r pte.page).returns
        (Memory.kfree_returns (h.outside hi hleaf).1)) ?_
      rintro - r₁ ⟨-, hr, -⟩
      exact hrest r₁ hr

end Xv6.Vm
