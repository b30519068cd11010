import Mathlib.Data.Fintype.Prod
import Xv6.Framework.Returns
import Xv6.Memory.PageTable

open Xv6.Framework
open Function (update update_self update_of_ne update_eq_self)

namespace Xv6.Memory

/-! Accounting. Every page is counted wherever it is held; a function that keeps the counts neither
loses a page nor gives one out twice. -/

def hit (p x : Page) : Nat := if p = x then 1 else 0

theorem hit_self (x : Page) : hit x x = 1 := if_pos rfl

/-- How often a page stands on the free list. -/
def Mem.free (m : Mem) (x : Page) : Nat := m.freelist.count x

/-- The pages that kalloc may hand out. -/
def Mem.frame (m : Mem) (x : Page) : Nat :=
  if m.first ≤ x ∧ x < PHYSTOP / PGSIZE then 1 else 0

theorem Mem.frame_le (m : Mem) (x : Page) : m.frame x ≤ 1 := by
  rw [frame]
  split <;> simp

structure Same (m m' : Mem) : Prop where
  first : m'.first = m.first
  trampoline : m'.trampoline = m.trampoline

/-- The next `n` allocations succeed. -/
structure Ample (n : Nat) (m : Mem) : Prop where
  granted : ∀ b ∈ m.deny, b = false
  room : n ≤ m.freelist.length

variable {m m' m'' : Mem}

theorem Same.refl (m : Mem) : Same m m := ⟨rfl, rfl⟩

theorem Same.trans (h : Same m m') (h' : Same m' m'') : Same m m'' :=
  ⟨h'.first.trans h.first, h'.trampoline.trans h.trampoline⟩

theorem Same.frame (h : Same m m') (x : Page) : m'.frame x = m.frame x := by
  rw [Mem.frame, Mem.frame, h.first]

theorem Ample.mono {n k : Nat} (h : Ample n m) (hk : k ≤ n) : Ample k m :=
  ⟨h.granted, hk.trans h.room⟩

theorem kalloc_returns (m : Mem) :
    Returns kalloc m fun r m' =>
      Same m m' ∧ (∀ x, m.free x = m'.free x + r.elim 0 fun p => hit p x) ∧
        ∀ n, Ample (n + 1) m → r.isSome ∧ Ample n m' := by
  by_cases hd : m.deny.headD false = true
  · refine Returns.of_eq (if_pos hd) ⟨⟨rfl, rfl⟩, fun x => rfl, fun n ha => ?_⟩
    cases hl : m.deny with
    | nil => simp [hl] at hd
    | cons b bs =>
      have hb := ha.granted b (by simp [hl])
      simp [hl, hb] at hd
  · cases hf : m.freelist with
    | nil =>
      refine Returns.of_eq (t := { m with deny := m.deny.tail }) (a := none) ?_
        ⟨⟨rfl, rfl⟩, fun x => rfl, fun n ha => ?_⟩
      · simp only [kalloc, if_neg hd, hf]
      · have hr := ha.room
        simp [hf] at hr
    | cons r next =>
      refine Returns.of_eq (t := { m with deny := m.deny.tail, freelist := next })
        (a := some r) ?_ ⟨⟨rfl, rfl⟩, fun x => ?_, fun n ha => ⟨rfl, ?_, ?_⟩⟩
      · simp only [kalloc, if_neg hd, hf]
      · simp only [Mem.free, hf, List.count_cons, hit, Option.elim_some, beq_iff_eq]
      · intro b hb
        exact ha.granted b (List.mem_of_mem_tail hb)
      · have hr := ha.room
        simp only [hf] at hr
        exact Nat.le_of_succ_le_succ hr

theorem kfree_returns {pa : Page} (h : m.frame pa = 1) :
    Returns (kfree pa) m fun _ m' => Same m m' ∧ ∀ x, m'.free x = m.free x + hit pa x := by
  have hr : m.first ≤ pa ∧ pa < PHYSTOP / PGSIZE := by
    by_contra hc
    rw [Mem.frame, if_neg hc] at h
    cases h
  have hn : ¬(pa < m.first ∨ PHYSTOP / PGSIZE ≤ pa) := by
    rintro (hlt | hle)
    · exact Nat.not_le.mpr hlt hr.1
    · exact Nat.not_le.mpr hr.2 hle
  refine Returns.of_eq (if_neg hn) ⟨⟨rfl, rfl⟩, fun x => ?_⟩
  simp only [Mem.free, List.count_cons, hit, beq_iff_eq]

/-- How often a page is a page of a table or counted by `g` in one of its entries. -/
def Table.weigh {α : Type} (g : α → Nat) (x : Page) (t : Table α) : Nat :=
  hit t.page x + ∑ i, (t.entry i).elim 0 g

def lowPages (x : Page) (low : Table Pte) : Nat := low.weigh (fun _ => 0) x

def midPages (x : Page) (mid : Table (Table Pte)) : Nat := mid.weigh (lowPages x) x

/-- How often a page is one of the table's own pages. -/
def PageTable.tables (pt : PageTable) (x : Page) : Nat := pt.weigh (midPages x) x

/-- The pages from here on belong to the kernel in every user page table. -/
def lastUser : Nat := TRAPFRAME / PGSIZE

def ownLeaf (x : Page) (i : Index) (e : Option Pte) : Nat :=
  if vpn i < lastUser then e.elim 0 fun pte => hit pte.page x else 0

/-- How often a page is a user page of the table. -/
def PageTable.user (pt : PageTable) (x : Page) : Nat := ∑ i, ownLeaf x i (pt.leaf i)

namespace Table

variable {α : Type} {g : α → Nat} {x : Page} {t : Table α}

theorem weigh_cleared (p : Page) : (cleared p : Table α).weigh g x = hit p x := by
  simp [weigh, cleared]

theorem weigh_set (i : Fin 512) (v : Option α) :
    (t.set i v).weigh g x + (t.entry i).elim 0 g = t.weigh g x + v.elim 0 g := by
  have h := sum_update_add t.entry (fun _ (e : Option α) => e.elim 0 g) i v
  simp only [weigh, set]
  omega

theorem entry_set_self (i : Fin 512) (v : Option α) : (t.set i v).entry i = v :=
  update_self ..

theorem entry_set_ne {i j : Fin 512} (h : j ≠ i) (v : Option α) :
    (t.set i v).entry j = t.entry j :=
  update_of_ne h ..

theorem set_entry {i : Fin 512} {v : Option α} (h : t.entry i = v) : t.set i v = t := by
  subst h
  rw [set, update_eq_self]

end Table

/-- The level-0 table that holds a leaf is there. -/
def PageTable.Reached (pt : PageTable) (i : Index) : Prop :=
  ∃ mid low, pt.entry i.1 = some mid ∧ mid.entry i.2.1 = some low

namespace PageTable

variable {pt : PageTable} {i : Index} {va : Nat}

theorem reached_of_leaf (h : (pt.leaf i).isSome) : pt.Reached i := by
  rw [leaf] at h
  cases h1 : pt.entry i.1 with
  | none => simp [h1] at h
  | some mid =>
    cases h2 : mid.entry i.2.1 with
    | none => simp [h1, h2] at h
    | some low => exact ⟨mid, low, h1, h2⟩

theorem setLeaf_eq {mid : Table (Table Pte)} {low : Table Pte} (h1 : pt.entry i.1 = some mid)
    (h2 : mid.entry i.2.1 = some low) (v : Option Pte) :
    pt.setLeaf i v = pt.set i.1 (some (mid.set i.2.1 (some (low.set i.2.2 v)))) := by
  rw [setLeaf]
  simp only [h1, h2]

theorem leaf_eq {mid : Table (Table Pte)} {low : Table Pte} (h1 : pt.entry i.1 = some mid)
    (h2 : mid.entry i.2.1 = some low) : pt.leaf i = low.entry i.2.2 := by
  rw [leaf, h1, Option.bind_some, h2, Option.bind_some]

theorem leaf_setLeaf (h : pt.Reached i) (v : Option Pte) :
    (pt.setLeaf i v).leaf = update pt.leaf i v := by
  obtain ⟨mid, low, h1, h2⟩ := h
  rw [setLeaf_eq h1 h2]
  funext j
  by_cases hj1 : j.1 = i.1
  · have e1 : (pt.set i.1 (some (mid.set i.2.1 (some (low.set i.2.2 v))))).entry j.1 =
        some (mid.set i.2.1 (some (low.set i.2.2 v))) := by
      rw [hj1, Table.entry_set_self]
    by_cases hj2 : j.2.1 = i.2.1
    · have e2 : (mid.set i.2.1 (some (low.set i.2.2 v))).entry j.2.1 =
          some (low.set i.2.2 v) := by
        rw [hj2, Table.entry_set_self]
      rw [leaf_eq e1 e2]
      by_cases hj3 : j.2.2 = i.2.2
      · have hj : j = i := Prod.ext hj1 (Prod.ext hj2 hj3)
        rw [hj, update_self, Table.entry_set_self]
      · have hj : j ≠ i := fun h => hj3 (by rw [h])
        rw [update_of_ne hj, Table.entry_set_ne hj3,
          leaf_eq (by rw [hj1]; exact h1) (by rw [hj2]; exact h2)]
    · have hj : j ≠ i := fun h => hj2 (by rw [h])
      rw [update_of_ne hj, leaf, leaf, e1, hj1, h1, Option.bind_some, Option.bind_some,
        Table.entry_set_ne hj2]
  · have hj : j ≠ i := fun h => hj1 (by rw [h])
    rw [update_of_ne hj, leaf, leaf, Table.entry_set_ne hj1]

theorem tables_setLeaf (h : pt.Reached i) (v : Option Pte) (x : Page) :
    (pt.setLeaf i v).tables x = pt.tables x := by
  obtain ⟨mid, low, h1, h2⟩ := h
  rw [setLeaf_eq h1 h2, tables, tables]
  have hl := Table.weigh_set (g := fun _ : Pte => 0) (x := x) (t := low) i.2.2 v
  have hm := Table.weigh_set (g := lowPages x) (x := x) (t := mid) i.2.1
    (some (low.set i.2.2 v))
  have ht := Table.weigh_set (g := midPages x) (x := x) (t := pt) i.1
    (some (mid.set i.2.1 (some (low.set i.2.2 v))))
  have h0 : ∀ e : Option Pte, e.elim 0 (fun _ => 0) = 0 := by
    intro e
    cases e <;> rfl
  simp only [h1, h2, h0, Option.elim_some, midPages, lowPages] at hl hm ht ⊢
  omega

theorem user_setLeaf (h : pt.Reached i) (v : Option Pte) (x : Page) :
    (pt.setLeaf i v).user x + ownLeaf x i (pt.leaf i) = pt.user x + ownLeaf x i v := by
  rw [user, leaf_setLeaf h]
  exact sum_update_add pt.leaf (ownLeaf x) i v

theorem user_congr {pt' : PageTable} (h : pt'.leaf = pt.leaf) (x : Page) : pt'.user x = pt.user x := by
  rw [user, user, h]

end PageTable

end Xv6.Memory
