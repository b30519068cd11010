import Xv6.Vm.Table

/-! # vm.c on memory does what it does on tables

Each function follows its counterpart on the table that memory holds, and says which pages it
writes.
-/

namespace Xv6.Vm

open Xv6.Framework
open Xv6.Memory (Pte PageTable Mem)

variable {r r' : Machine} {a b : Bytes} {p q x root : Page} {i : Index} {alloc : Bool}

/-- The pages of the free list and of the table itself are different frames. -/
def Apart (m : Mem) (pt : PageTable) : Prop := ∀ x, m.free x + pt.tables x ≤ m.frame x

namespace Apart

variable {m m' : Mem} {pt pt' : PageTable}

theorem distinct (h : Apart m pt) : Distinct pt := by
  intro x
  have h1 := h x
  have h2 := m.frame_le x
  omega

theorem fresh (h : Apart m pt) (hx : m.free x ≠ 0) : pt.tables x = 0 := by
  have h1 := h x
  have h2 := m.frame_le x
  omega

theorem moved (h : Apart m pt) (hs : Memory.Same m m')
    (hc : ∀ x, m'.free x + pt'.tables x = m.free x + pt.tables x) : Apart m' pt' := by
  intro x
  rw [hc, hs.frame]
  exact h x

end Apart

theorem frame_lt {m : Mem} (h : 0 < m.frame x) : x < PHYSTOP / PGSIZE := by
  by_contra hc
  rw [Mem.frame, if_neg fun hf => hc hf.2] at h
  exact absurd h (Nat.lt_irrefl 0)

theorem frame_addr {m : Mem} (h : 0 < m.frame x) : x * PGSIZE < 2 ^ 56 := by
  have hx := frame_lt h
  calc x * PGSIZE ≤ 557056 * PGSIZE := Nat.mul_le_mul_right _ hx.le
    _ < 2 ^ 56 := by decide

theorem Apart.addr {m : Mem} {pt : PageTable} (h : Apart m pt) (hx : m.free x ≠ 0) :
    x * PGSIZE < 2 ^ 56 := by
  have h1 : 0 < m.frame x := by
    have hle := h x
    omega
  exact frame_addr h1

theorem kalloc_refines (r : Machine) :
    Refines Machine.mem kalloc Memory.kalloc r fun a e r' =>
      Memory.Same r.mem r'.mem ∧ (∀ x, r.mem.free x = r'.mem.free x + e.elim 0 (hit · x)) ∧
        (e = none → a = none ∧ r'.ram = r.ram) ∧
        ∀ p, e = some p → a = some (p * PGSIZE) ∧
          r'.ram = r.ram.copy (p * PGSIZE) PGSIZE fun _ => 5 := by
  intro e m h
  obtain ⟨e', m', he, hs, hf, -⟩ := Memory.kalloc_returns r.mem
  rw [h] at he
  cases he
  cases e with
  | none =>
    refine ⟨none, ⟨m, r.ram⟩, ?_, rfl, hs, hf, fun _ => ⟨rfl, rfl⟩, nofun⟩
    simp only [kalloc, h]
  | some p =>
    refine ⟨some (p * PGSIZE), ⟨m, r.ram.copy (p * PGSIZE) PGSIZE fun _ => 5⟩, ?_, rfl, hs, hf, nofun,
      ?_⟩
    · simp only [kalloc, h]
    · intro p' hp
      cases hp
      exact ⟨rfl, rfl⟩

/-- A page is given back, if `doFree` says so. -/
structure Released (r : Machine) (p : Page) (doFree : Bool) (r' : Machine) : Prop where
  same : Memory.Same r.mem r'.mem
  free : ∀ x, r'.mem.free x = r.mem.free x + if doFree then hit p x else 0
  off : Off (fun x => doFree = true ∧ x = p) r.ram r'.ram

theorem Released.refl (r : Machine) (p : Page) : Released r p false r :=
  ⟨.refl _, fun _ => rfl, .refl _ _⟩

theorem kfree_refines (r : Machine) (p : Page) :
    Refines Machine.mem (kfree (p * PGSIZE)) (Memory.kfree p) r fun _ _ r' => Released r p true r' := by
  intro _ m h
  have hal : ¬(p * PGSIZE % PGSIZE ≠ 0) := by simp
  have hm : m = { r.mem with freelist := p :: r.mem.freelist } := by
    rw [Memory.kfree] at h
    split at h
    · cases h
    · exact (Prod.mk.inj (Except.ok.inj h)).2.symm
  refine ⟨(), ⟨m, r.ram.copy (p * PGSIZE) PGSIZE fun _ => 1⟩, ?_, rfl, ?_, fun x => ?_, ?_⟩
  · simp only [kfree, if_neg hal, Nat.mul_div_cancel p (show 0 < PGSIZE by decide), h]
  · rw [hm]
    exact ⟨rfl, rfl⟩
  · rw [hm, if_pos rfl]
    simp only [Mem.free, List.count_cons, hit, beq_iff_eq]
  · have hoff : Off (· = p) r.ram (r.ram.copy (p * PGSIZE) PGSIZE fun _ => 1) := off_page _
    exact hoff.mono fun x hx => ⟨rfl, hx⟩

/-! ## walk -/

/-- What one level of walk leaves, at entry `j` of page `p`: the page behind the entry is there, and
it is there already or new and empty. -/
structure Descended {β : Type} (sub : Bytes → Page → Memory.Table β) (r : Machine) (p : Page)
    (j : Fin 512) (u : Memory.Table β) (r' : Machine) : Prop where
  next : next r'.ram p j = some u.page
  below : sub r'.ram u.page = u
  upper : Vm.upper sub r'.ram p = (Vm.upper sub r.ram p).set j (some u)
  kept : r' = r ∨ Vm.next r.ram p j = none ∧ Memory.Same r.mem r'.mem ∧
    (∀ x, r.mem.free x = r'.mem.free x + hit u.page x) ∧
    (∀ k < PGSIZE, r'.ram (u.page * PGSIZE + k) = 0) ∧
      Off (fun x => x = p ∨ x = u.page) r.ram r'.ram

section Descend

variable {β : Type} {sub : Bytes → Page → Memory.Table β} {g : Page → Memory.Table β → Nat}
  {j : Fin 512}

theorem next_eq_some (h : Vm.next a p j = some q) :
    word a p j &&& PTE_V ≠ 0 ∧ PTE2PA (word a p j) = q * PGSIZE := by
  obtain ⟨pte, hv, rfl⟩ := Option.map_eq_some_iff.mp h
  obtain ⟨hbit, hpa, -⟩ := view_eq_some hv
  exact ⟨hbit, hpa⟩

theorem next_eq_none (h : Vm.next a p j = none) : ¬(word a p j &&& PTE_V ≠ 0) :=
  view_eq_none (Option.map_eq_none_iff.mp h)

theorem upper_none (h : Vm.next a p j = none) : (upper sub a p).entry j = none := by
  show (Vm.next a p j).map _ = none
  rw [h, Option.map_none]

theorem sub_page (hpage : ∀ a q, (sub a q).page = q) (h : (upper sub a p).entry j = some u) :
    Vm.next a p j = some u.page ∧ sub a u.page = u := by
  obtain ⟨q, hq, rfl⟩ := Option.map_eq_some_iff.mp h
  rw [hpage]
  exact ⟨hq, rfl⟩

theorem free_of_hit {m m' : Mem} (h : ∀ x, m.free x = m'.free x + hit p x) : m.free p ≠ 0 := by
  rw [h p, Memory.hit_self]
  omega

theorem descend_refines (alloc : Bool) (hl : Local sub g) (hc : Clears sub)
    (hpage : ∀ a q, (sub a q).page = q)
    (hone : ∀ x, (upper sub r.ram p).weigh (g x) x ≤ 1)
    (hfree : ∀ x, r.mem.free x ≠ 0 →
      (upper sub r.ram p).weigh (g x) x = 0 ∧ x * PGSIZE < 2 ^ 56) :
    Refines Machine.mem (descend (p * PGSIZE) j alloc)
      (Memory.descend ((upper sub r.ram p).entry j) alloc) r fun e t r' =>
        e = t.map (fun u => u.page * PGSIZE) ∧
          (t = none → r'.ram = r.ram ∧ Memory.Same r.mem r'.mem ∧ r'.mem.free = r.mem.free) ∧
          ∀ u, t = some u → Descended sub r p j u r' := by
  have hload : load64 (entryAddr (p * PGSIZE) j) r = .ok (word r.ram p j, r) := rfl
  refine Refines.step hload rfl ?_
  cases he : (upper sub r.ram p).entry j with
  | some u =>
    obtain ⟨hnext, hsub⟩ := sub_page hpage he
    obtain ⟨hbit, hpa⟩ := next_eq_some hnext
    rw [if_pos hbit, hpa]
    refine Refines.pure ⟨rfl, by simp, fun v hv => ?_⟩
    cases hv
    exact ⟨hnext, hsub, (Memory.Table.set_entry he).symm, .inl rfl⟩
  | none =>
    have hnext : Vm.next r.ram p j = none := Option.map_eq_none_iff.mp he
    rw [if_neg (next_eq_none hnext)]
    cases alloc with
    | false => exact Refines.pure ⟨rfl, fun _ => ⟨rfl, .refl _, rfl⟩, by simp⟩
    | true =>
      refine Refines.bind (kalloc_refines r) ?_
      rintro e t r₁ ⟨hs, hf, hnone, hsome⟩
      cases t with
      | none =>
        obtain ⟨rfl, hram⟩ := hnone rfl
        exact Refines.pure ⟨rfl, fun _ => ⟨hram, hs, funext fun x => (hf x).symm⟩, by simp⟩
      | some q =>
        obtain ⟨rfl, hram⟩ := hsome q rfl
        obtain ⟨hfresh, haddr⟩ := hfree q (free_of_hit hf)
        -- the page is cleared, then the entry is written
        have hoff : Off (· = q) r.ram (r₁.ram.copy (q * PGSIZE) PGSIZE fun _ => 0) := by
          rw [hram]
          exact (off_page _).trans (off_page _)
        have hzero : ∀ k < PGSIZE,
            r₁.ram.copy (q * PGSIZE) PGSIZE (fun _ => 0) (q * PGSIZE + k) = 0 :=
          fun k hk => Bytes.copy_inside hk
        have hview : (view (PA2PTE (q * PGSIZE) ||| PTE_V)).map Pte.page = some q := by
          have hpack := view_pack haddr (show UInt64.toNat 0 < 2 ^ 10 by decide)
          rw [UInt64.or_zero, Nat.mul_div_cancel q (by decide)] at hpack
          rw [hpack]
          rfl
        refine Refines.step
          rfl rfl ?_
        refine Refines.step rfl rfl ?_
        obtain ⟨hset, hnext'⟩ := upper_install (i := j) hl hc hone hfresh hview hoff hzero
        have hne : q ≠ p := by
          rintro rfl
          exact (weigh_page (upper sub r.ram q) (g q)).ne' hfresh
        refine Refines.pure ⟨rfl, by simp, fun u hu => ?_⟩
        cases hu
        have hzero' : ∀ k < PGSIZE, ((r₁.ram.copy (q * PGSIZE) PGSIZE fun _ => 0).setU64
            (entryAddr (p * PGSIZE) j) (PA2PTE (q * PGSIZE) ||| PTE_V)) (q * PGSIZE + k) = 0 := by
          intro k hk
          rw [off_setU64 j _ q hne k hk, hzero k hk]
        refine ⟨hnext', hc hzero', hset, .inr ⟨hnext, hs, hf, hzero', ?_⟩⟩
        exact (hoff.mono fun x hx => .inr hx).trans ((off_setU64 j _).mono fun x hx => .inl hx)

theorem Descended.count (hc : Clears sub) (hg : ∀ x q, g x (.cleared q) = hit q x)
    (h : Descended sub r p j u r') (x : Page) :
    r'.mem.free x + (Vm.upper sub r'.ram p).weigh (g x) x =
      r.mem.free x + (Vm.upper sub r.ram p).weigh (g x) x := by
  rcases h.kept with rfl | ⟨hnext, -, hf, hzero, -⟩
  · rfl
  have hset := Memory.Table.weigh_set (g := g x) (x := x) (t := Vm.upper sub r.ram p) j (some u)
  have hu : g x u = hit u.page x := by
    rw [← hg x u.page, ← hc hzero, h.below]
  rw [upper_none hnext, Option.elim_none, Option.elim_some, ← h.upper] at hset
  rw [hf x]
  omega

end Descend

theorem midAt_page (a : Bytes) (q : Page) : (midAt a q).page = q := rfl

theorem lowAt_page (a : Bytes) (q : Page) : (lowAt a q).page = q := rfl

theorem lowPages_cleared (x q : Page) : lowPages x (.cleared q) = hit q x := by
  rw [lowPages, Memory.Table.weigh_cleared]

theorem midPages_cleared (x q : Page) : midPages x (.cleared q) = hit q x := by
  rw [midPages, Memory.Table.weigh_cleared]

/-- The pages that a walk may write. -/
def Spare (m : Mem) (pt : PageTable) (x : Page) : Prop := m.free x + pt.tables x ≠ 0

/-- Pages have moved between the free list and the table at most. -/
structure Moved (r : Machine) (root : Page) (r' : Machine) : Prop where
  same : Memory.Same r.mem r'.mem
  count : ∀ x, r'.mem.free x + (tableAt r'.ram root).tables x =
    r.mem.free x + (tableAt r.ram root).tables x
  off : Off (Spare r.mem (tableAt r.ram root)) r.ram r'.ram

namespace Moved

variable {r'' : Machine}

theorem refl (r : Machine) (root : Page) : Moved r root r :=
  ⟨.refl _, fun _ => rfl, .refl _ _⟩

theorem trans (h : Moved r root r') (h' : Moved r' root r'') : Moved r root r'' := by
  refine ⟨h.same.trans h'.same, fun x => (h'.count x).trans (h.count x),
    h.off.trans (h'.off.mono fun x hx => ?_)⟩
  rw [Spare, ← h.count x]
  exact hx

theorem apart (h : Moved r root r') (hap : Apart r.mem (tableAt r.ram root)) :
    Apart r'.mem (tableAt r'.ram root) := hap.moved h.same h.count

end Moved

/-- The table has grown by new pages only. -/
structure Grown (r : Machine) (root : Page) (r' : Machine) : Prop extends Moved r root r' where
  pte : pteAt r'.ram root = pteAt r.ram root

namespace Grown

theorem refl (r : Machine) (root : Page) : Grown r root r := ⟨.refl r root, rfl⟩

theorem of_ram (hr : r'.ram = r.ram) (hs : Memory.Same r.mem r'.mem)
    (hf : r'.mem.free = r.mem.free) : Grown r root r' := by
  refine ⟨⟨hs, ?_, ?_⟩, ?_⟩
  · rw [hr, hf]
    exact fun _ => rfl
  · rw [hr]
    exact .refl _ _
  · rw [hr]

theorem trans {r'' : Machine} (h : Grown r root r') (h' : Grown r' root r'') : Grown r root r'' :=
  ⟨h.toMoved.trans h'.toMoved, h'.pte.trans h.pte⟩

end Grown

theorem Descended.grown_top {u : Memory.Table (Memory.Table Pte)} {j : Fin 512}
    (hap : Apart r.mem (tableAt r.ram root)) (h : Descended midAt r root j u r') :
    Grown r root r' := by
  have hcount := h.count clears_upper midPages_cleared
  rcases h.kept with rfl | ⟨hnext, hs, hf, hzero, hoff⟩
  · exact .refl _ _
  have htable : tableAt r'.ram root = (tableAt r.ram root).set j (some u) := h.upper
  have hentry : (tableAt r.ram root).entry j = none := upper_none hnext
  have hclear : u = .cleared u.page := h.below.symm.trans (clears_upper hzero)
  have hfresh := free_of_hit hf
  refine ⟨⟨hs, hcount, hoff.mono ?_⟩, pteAt_grow hap.distinct hoff ?_ fun k => ?_⟩
  · rintro x (rfl | rfl)
    · have hpos : 0 < (tableAt r.ram x).tables x := weigh_page (tableAt r.ram x) _
      rw [Spare]
      omega
    · rw [Spare]
      omega
  · rintro s (rfl | rfl) hs
    · exact .inl rfl
    · exact absurd (hap.fresh hfresh) hs
  · rw [htable, slotOf, slotOf]
    by_cases hk : k.1 = j
    · right
      rw [hk, hentry, Memory.Table.entry_set_self, hclear]
      exact ⟨rfl, by simp [Memory.Table.cleared]⟩
    · left
      rw [Memory.Table.entry_set_ne hk]

theorem Descended.grown_mid {u : Memory.Table Pte} {j k : Fin 512}
    (hap : Apart r.mem (tableAt r.ram root)) (hq : Vm.next r.ram root j = some q)
    (h : Descended lowAt r q k u r') :
    Grown r root r' ∧ tableAt r'.ram root =
      (tableAt r.ram root).set j (some ((midAt r.ram q).set k (some u))) := by
  have hcount := h.count clears_low lowPages_cleared
  have hmid : (tableAt r.ram root).entry j = some (midAt r.ram q) := upper_entry midAt hq
  have hupper : midAt r'.ram q = (midAt r.ram q).set k (some u) := h.upper
  rcases h.kept with rfl | ⟨hnext, hs, hf, hzero, hoff⟩
  · rw [← hupper, Memory.Table.set_entry hmid]
    exact ⟨.refl _ _, rfl⟩
  have hlow : (midAt r.ram q).entry k = none := upper_none hnext
  have hfresh := free_of_hit hf
  have hself : 0 < midPages q (midAt r.ram q) := weigh_page (midAt r.ram q) _
  have htable : tableAt r'.ram root =
      (tableAt r.ram root).set j (some ((midAt r.ram q).set k (some u))) := by
    rw [← hupper]
    refine (upper_below local_mid hap.distinct hq hoff ?_).1
    rintro x (rfl | rfl)
    · exact .inl hself.ne'
    · exact .inr (hap.fresh hfresh)
  refine ⟨⟨⟨hs, fun x => ?_, hoff.mono ?_⟩, pteAt_grow hap.distinct hoff ?_ fun l => ?_⟩, htable⟩
  · have hset := Memory.Table.weigh_set (g := midPages x) (x := x) (t := tableAt r.ram root) j
      (some ((midAt r.ram q).set k (some u)))
    have hbelow : r'.mem.free x + midPages x (midAt r'.ram q) =
      r.mem.free x + midPages x (midAt r.ram q) := hcount x
    rw [hmid, ← hupper, Option.elim_some, Option.elim_some, hupper, ← htable] at hset
    rw [hupper] at hbelow
    rw [PageTable.tables, PageTable.tables]
    omega
  · rintro x (rfl | rfl)
    · have hle := weigh_entry (x := x) hmid (midPages x)
      rw [Spare, PageTable.tables]
      omega
    · rw [Spare]
      omega
  · rintro s (rfl | rfl) hs
    · exact .inr ⟨j, midAt r.ram s, hmid, rfl⟩
    · exact absurd (hap.fresh hfresh) hs
  · rw [htable, slotOf, slotOf]
    by_cases h1 : l.1 = j
    · rw [h1, hmid, Memory.Table.entry_set_self, Option.bind_some, Option.bind_some]
      by_cases h2 : l.2.1 = k
      · right
        rw [h2, hlow, Memory.Table.entry_set_self]
        refine ⟨rfl, fun addr haddr => ?_⟩
        cases haddr
        refine Bytes.u64_zero fun b hb => ?_
        have hle := entryAddr_le l.2.2
        show r'.ram (u.page * PGSIZE + 8 * l.2.2 + b) = 0
        rw [Nat.add_assoc]
        exact hzero _ (by omega)
      · left
        rw [Memory.Table.entry_set_ne h2]
    · left
      rw [Memory.Table.entry_set_ne h1]

theorem set_set {α : Type} (t : Memory.Table α) (j : Fin 512) (u v : Option α) :
    (t.set j u).set j v = t.set j v := by
  simp only [Memory.Table.set, Function.update_idem]

theorem walk_refines {va : Nat} (hap : Apart r.mem (tableAt r.ram root)) :
    Refines Machine.mem (walk (root * PGSIZE) va alloc) (Memory.walk (tableAt r.ram root) va alloc) r
      fun e t r' => va < MAXVA ∧ Grown r root r' ∧ tableAt r'.ram root = t.1 ∧
        (e = none ∧ t.2 = none ∨
          e = slotOf t.1 (index va) ∧ t.2 = some (index va) ∧ t.1.Reached (index va)) := by
  rw [walk, Memory.walk]
  split
  · intro b u h
    cases h
  rename_i hva
  have hva := Nat.not_le.mp hva
  have hone : ∀ x, (upper midAt r.ram root).weigh (midPages x) x ≤ 1 := hap.distinct
  have hfree : ∀ x, r.mem.free x ≠ 0 →
      (upper midAt r.ram root).weigh (midPages x) x = 0 ∧ x * PGSIZE < 2 ^ 56 :=
    fun x hx => ⟨hap.fresh hx, hap.addr hx⟩
  refine Refines.bind (descend_refines alloc local_mid clears_upper midAt_page hone hfree) ?_
  rintro e t r₁ ⟨rfl, hnone, hsome⟩
  cases t with
  | none =>
    obtain ⟨hr, hs, hf⟩ := hnone rfl
    refine Refines.pure ⟨hva, .of_ram hr hs hf, ?_, .inl ⟨rfl, rfl⟩⟩
    rw [hr]
  | some mid =>
    have hd := hsome mid rfl
    have hg := hd.grown_top hap
    have hap₁ := hg.apart hap
    have htable : tableAt r₁.ram root = (tableAt r.ram root).set (PX 2 va) (some mid) := hd.upper
    have hentry : (tableAt r₁.ram root).entry (PX 2 va) = some (midAt r₁.ram mid.page) :=
      upper_entry midAt hd.next
    have hmid : midAt r₁.ram mid.page = mid := hd.below
    have hone : ∀ x, (upper lowAt r₁.ram mid.page).weigh (lowPages x) x ≤ 1 := by
      intro x
      have hle := weigh_entry (x := x) hentry (midPages x)
      have h1 := hap₁.distinct x
      exact (Nat.le_add_right _ _).trans (hle.trans h1)
    have hfree : ∀ x, r₁.mem.free x ≠ 0 →
        (upper lowAt r₁.ram mid.page).weigh (lowPages x) x = 0 ∧ x * PGSIZE < 2 ^ 56 := by
      intro x hx
      have hle := weigh_entry (x := x) hentry (midPages x)
      have h1 := hap₁.fresh hx
      exact ⟨Nat.le_zero.mp ((Nat.le_add_right _ _).trans (hle.trans h1.le)), hap₁.addr hx⟩
    have hlow := descend_refines (j := PX 1 va) alloc local_low clears_low lowAt_page hone hfree
    rw [show upper lowAt r₁.ram mid.page = mid from hmid] at hlow
    refine Refines.bind hlow ?_
    rintro e t r₂ ⟨rfl, hnone, hsome⟩
    cases t with
    | none =>
      obtain ⟨hr, hs, hf⟩ := hnone rfl
      refine Refines.pure ⟨hva, hg.trans (.of_ram hr hs hf), ?_, .inl ⟨rfl, rfl⟩⟩
      rw [hr, htable]
    | some low =>
      obtain ⟨hg₂, htable₂⟩ := (hsome low rfl).grown_mid hap₁ hd.next
      rw [hmid, htable] at htable₂
      rw [set_set] at htable₂
      refine Refines.pure ⟨hva, hg.trans hg₂, htable₂, .inr ⟨?_, rfl, ?_⟩⟩
      · rw [slotOf, index, Memory.Table.entry_set_self, Option.bind_some,
          Memory.Table.entry_set_self]
        rfl
      · exact ⟨_, low, Memory.Table.entry_set_self .., Memory.Table.entry_set_self ..⟩

end Xv6.Vm
