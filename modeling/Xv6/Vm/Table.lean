import Xv6.Memory.Image
import Xv6.Vm.Model

/-! # The table that memory holds

Physical memory read as a page table: pages of words as tables of tables of entries. A store to an
entry is an update of that table as long as no page has two places in it.
-/

namespace Xv6.Vm

open Xv6.Framework
export Xv6.Memory (Index hit lowPages midPages index vpn PX PHYSTOP)
open Xv6.Memory (Pte Perm PageTable)

variable {a b c : Bytes} {p q x root : Page} {i : Index} {P Q : Page → Prop} {addr : Nat}
  {pt : PageTable}

/-! ## Entries -/

def permOf (pte : UInt64) : Perm :=
  ⟨pte &&& PTE_R ≠ 0, pte &&& PTE_W ≠ 0, pte &&& PTE_X ≠ 0, pte &&& PTE_U ≠ 0⟩

/-- What an entry maps. -/
def view (pte : UInt64) : Option Pte :=
  if pte &&& PTE_V ≠ 0 then some ⟨PTE2PA pte / PGSIZE, permOf pte⟩ else none

theorem view_zero : view 0 = none := by decide

theorem PTE2PA_toNat (pte : UInt64) : PTE2PA pte = pte.toNat / 2 ^ 10 * 2 ^ 12 % 2 ^ 64 := by
  have hr : (pte >>> 10).toNat = pte.toNat / 2 ^ 10 := Words.toNat_shiftRight pte (by decide)
  have h12 : UInt64.toNat 12 % 64 = 12 := rfl
  rw [PTE2PA, UInt64.toNat_shiftLeft, hr, h12, Nat.shiftLeft_eq]

theorem PTE2PA_page (pte : UInt64) : PTE2PA pte / PGSIZE * PGSIZE = PTE2PA pte := by
  rw [PTE2PA_toNat, PGSIZE]
  omega

theorem view_eq_some {pte : UInt64} {e : Pte} (h : view pte = some e) :
    pte &&& PTE_V ≠ 0 ∧ PTE2PA pte = e.page * PGSIZE ∧ e.perm = permOf pte := by
  rw [view] at h
  split at h
  · rename_i hv
    cases h
    exact ⟨hv, (PTE2PA_page pte).symm, rfl⟩
  · cases h

theorem view_eq_none {pte : UInt64} (h : view pte = none) : ¬(pte &&& PTE_V ≠ 0) := by
  intro hv
  rw [view, if_pos hv] at h
  cases h

section Pack

variable {pa : Nat} {perm : UInt64}

theorem flags_lt (hperm : perm.toNat < 2 ^ 10) : (perm ||| PTE_V).toNat < 2 ^ 10 := by
  exact Nat.or_lt_two_pow hperm (by decide)

theorem pack_toNat (hpa : pa < 2 ^ 56) (hperm : perm.toNat < 2 ^ 10) :
    (PA2PTE pa ||| perm ||| PTE_V).toNat = 2 ^ 10 * (pa / 2 ^ 12) + (perm ||| PTE_V).toNat := by
  have hr : (UInt64.ofNat pa >>> 12).toNat = pa / 2 ^ 12 := by
    have hshift := Words.toNat_shiftRight (k := 12) (UInt64.ofNat pa) (by decide)
    rw [UInt64.toNat_ofNat', Nat.mod_eq_of_lt (by omega)] at hshift
    exact hshift
  have hor : PA2PTE pa ||| perm ||| PTE_V =
      (UInt64.ofNat pa >>> 12) <<< UInt64.ofNat 10 ||| (perm ||| PTE_V) := by
    rw [UInt64.or_assoc]
    rfl
  rw [hor, Words.toNat_shiftLeft_or (flags_lt hperm) (by decide) (by omega), hr,
    Nat.mul_comm]

theorem PTE2PA_pack (hpa : pa < 2 ^ 56) (hperm : perm.toNat < 2 ^ 10) :
    PTE2PA (PA2PTE pa ||| perm ||| PTE_V) = pa / PGSIZE * PGSIZE := by
  have hlt := flags_lt hperm
  rw [PTE2PA_toNat, pack_toNat hpa hperm, PGSIZE]
  omega

theorem flags_pack (hpa : pa < 2 ^ 56) (hperm : perm.toNat < 2 ^ 10) :
    PTE_FLAGS (PA2PTE pa ||| perm ||| PTE_V) = perm ||| PTE_V := by
  have hlt := flags_lt hperm
  have hmask := Words.toNat_and_mask (k := 10) (PA2PTE pa ||| perm ||| PTE_V) (by decide)
  apply UInt64.toNat.inj
  refine hmask.trans ?_
  rw [pack_toNat hpa hperm]
  omega

/-- Each flag of an entry is the one that was asked for. -/
theorem pack_bit {k : Nat} (hpa : pa < 2 ^ 56) (hperm : perm.toNat < 2 ^ 10) (hk : k < 10) :
    (PA2PTE pa ||| perm ||| PTE_V) &&& UInt64.ofNat (2 ^ k) ≠ 0 ↔
      perm &&& UInt64.ofNat (2 ^ k) ≠ 0 ∨ k = 0 := by
  have hone : PTE_V.toNat.testBit k = true ↔ k = 0 := Nat.testBit_one_eq_true_iff_self_eq_zero
  rw [Words.and_bit _ (by omega), Words.and_bit _ (by omega), pack_toNat hpa hperm,
    Nat.testBit_two_pow_mul_add _ (flags_lt hperm), if_pos hk, UInt64.toNat_or, Nat.testBit_or,
    Bool.or_eq_true, hone]

theorem view_pack (hpa : pa < 2 ^ 56) (hperm : perm.toNat < 2 ^ 10) :
    view (PA2PTE pa ||| perm ||| PTE_V) = some ⟨pa / PGSIZE, permOf perm⟩ := by
  have hv : (PA2PTE pa ||| perm ||| PTE_V) &&& PTE_V ≠ 0 :=
    (pack_bit (k := 0) hpa hperm (by decide)).mpr (.inr rfl)
  have hr := pack_bit (k := 1) hpa hperm (by decide)
  have hw := pack_bit (k := 2) hpa hperm (by decide)
  have hx := pack_bit (k := 3) hpa hperm (by decide)
  have hu := pack_bit (k := 4) hpa hperm (by decide)
  simp only [Nat.one_ne_zero, OfNat.ofNat_ne_zero, or_false] at hr hw hx hu
  have hperms : permOf (PA2PTE pa ||| perm ||| PTE_V) = permOf perm := by
    simp only [permOf, Perm.mk.injEq, decide_eq_decide]
    exact ⟨hr, hw, hx, hu⟩
  rw [view, if_pos hv, hperms, PTE2PA_pack hpa hperm, Nat.mul_div_cancel _ (by decide)]

end Pack

/-! ## Pages -/

/-- Only bytes of the pages of `P` differ. -/
def Off (P : Page → Prop) (a b : Bytes) : Prop :=
  ∀ x, ¬ P x → ∀ k < PGSIZE, b (x * PGSIZE + k) = a (x * PGSIZE + k)

namespace Off

theorem refl (P : Page → Prop) (a : Bytes) : Off P a a := fun _ _ _ _ => rfl

theorem mono (h : Off P a b) (hPQ : ∀ x, P x → Q x) : Off Q a b :=
  fun x hx => h x fun hp => hx (hPQ x hp)

theorem trans (h : Off P a b) (h' : Off P b c) : Off P a c :=
  fun x hx k hk => (h' x hx k hk).trans (h x hx k hk)

end Off

theorem off_copy {n off : Nat} (f : Bytes) (h : off + n ≤ PGSIZE) :
    Off (· = p) a (a.copy (p * PGSIZE + off) n f) := by
  intro x hx k hk
  refine Bytes.copy_outside ?_
  simp only [PGSIZE] at h hk ⊢
  rcases Nat.lt_or_gt_of_ne hx with hlt | hgt
  · left
    omega
  · right
    omega

theorem off_page (f : Bytes) : Off (· = p) a (a.copy (p * PGSIZE) PGSIZE f) := by
  have h : Off (· = p) a (a.copy (p * PGSIZE + 0) PGSIZE f) := off_copy f (by rw [Nat.zero_add])
  rw [Nat.add_zero] at h
  exact h

def word (ram : Bytes) (p : Page) (i : Fin 512) : UInt64 := ram.u64 (entryAddr (p * PGSIZE) i)

theorem entryAddr_le (i : Fin 512) : 8 * (i : Nat) + 8 ≤ PGSIZE := by
  rw [PGSIZE]
  omega

theorem off_setU64 (i : Fin 512) (v : UInt64) :
    Off (· = p) a (a.setU64 (entryAddr (p * PGSIZE) i) v) :=
  off_copy _ (entryAddr_le i)

theorem Off.word (h : Off P a b) (hp : ¬ P p) (i : Fin 512) : word b p i = word a p i := by
  refine Bytes.u64_congr fun j hj => ?_
  have hi := entryAddr_le i
  rw [entryAddr, Nat.add_assoc]
  exact h p hp _ (by omega)

theorem word_setU64_self (i : Fin 512) (v : UInt64) :
    word (a.setU64 (entryAddr (p * PGSIZE) i) v) p i = v :=
  Bytes.u64_setU64 v

theorem word_setU64_ne {i j : Fin 512} (h : j ≠ i) (v : UInt64) :
    word (a.setU64 (entryAddr (p * PGSIZE) i) v) p j = word a p j := by
  refine Bytes.u64_setU64_of_disjoint ?_
  simp only [entryAddr]
  omega

/-! ## The three levels -/

section Weight

variable {α : Type} {t : Memory.Table α} {u v : α} {j k : Fin 512}

theorem weigh_page (t : Memory.Table α) (f : α → Nat) : 0 < t.weigh f t.page := by
  rw [Memory.Table.weigh, Memory.hit_self]
  omega

theorem weigh_entry (h : t.entry j = some u) (f : α → Nat) : f u + hit t.page x ≤ t.weigh f x := by
  have hle := le_sum_univ (fun j => (t.entry j).elim 0 f) j
  rw [h, Option.elim_some] at hle
  rw [Memory.Table.weigh]
  omega

theorem weigh_entries (hjk : j ≠ k) (hj : t.entry j = some u) (hk : t.entry k = some v)
    (f : α → Nat) : f u + f v ≤ t.weigh f x := by
  have hle := add_le_sum_univ (fun j => (t.entry j).elim 0 f) hjk
  rw [hj, hk, Option.elim_some, Option.elim_some] at hle
  rw [Memory.Table.weigh]
  omega

end Weight

def next (ram : Bytes) (p : Page) (i : Fin 512) : Option Page := (view (word ram p i)).map Pte.page

/-- The entries of a page of level 0. -/
def lowAt (ram : Bytes) (p : Page) : Memory.Table Pte := ⟨p, fun i => view (word ram p i)⟩

/-- A page above level 0, if `sub` is how the pages below it are read. -/
def upper {β : Type} (sub : Bytes → Page → Memory.Table β) (ram : Bytes) (p : Page) :
    Memory.Table (Memory.Table β) :=
  ⟨p, fun i => (next ram p i).map (sub ram)⟩

def midAt : Bytes → Page → Memory.Table (Memory.Table Pte) := upper lowAt

/-- The page table whose root is page `p`. -/
def tableAt : Bytes → Page → PageTable := upper midAt

section Levels

variable {β : Type} {sub : Bytes → Page → Memory.Table β} {g : Page → Memory.Table β → Nat}

theorem next_congr {i : Fin 512} (h : word b p i = word a p i) : next b p i = next a p i := by
  rw [next, next, h]

/-- What `sub` reads depends on the pages that `g` counts only. -/
def Local (sub : Bytes → Page → Memory.Table β) (g : Page → Memory.Table β → Nat) : Prop :=
  ∀ ⦃P : Page → Prop⦄ ⦃a b : Bytes⦄ ⦃q : Page⦄, Off P a b → (∀ x, P x → g x (sub a q) = 0) →
    sub b q = sub a q

/-- A page of zeros is an empty table. -/
def Clears (sub : Bytes → Page → Memory.Table β) : Prop :=
  ∀ ⦃a : Bytes⦄ ⦃q : Page⦄, (∀ k < PGSIZE, a (q * PGSIZE + k) = 0) → sub a q = .cleared q

theorem upper_entry (sub : Bytes → Page → Memory.Table β) {j : Fin 512} (h : next a p j = some q) :
    (upper sub a p).entry j = some (sub a q) := by
  show (next a p j).map (sub a) = _
  rw [h, Option.map_some]

theorem local_upper (hl : Local sub g) : Local (upper sub) fun x t => t.weigh (g x) x := by
  intro P a b q hoff hzero
  have hself : ¬ P q := by
    intro hq
    have hpos := weigh_page (upper sub a q) (g q)
    exact absurd (hzero q hq) (Nat.ne_of_gt hpos)
  rw [upper]
  congr 1
  funext j
  rw [next_congr (hoff.word hself j)]
  cases hn : next a q j with
  | none => rfl
  | some s =>
    rw [Option.map_some, Option.map_some, hl hoff fun x hx => ?_]
    have hle := weigh_entry (x := x) (upper_entry sub hn) (g x)
    have hz : (upper sub a q).weigh (g x) x = 0 := hzero x hx
    omega

theorem clears_upper : Clears (upper sub) := by
  intro a q hz
  have hword : ∀ j, word a q j = 0 := by
    intro j
    refine Bytes.u64_zero fun k hk => ?_
    have hi := entryAddr_le j
    rw [entryAddr, Nat.add_assoc]
    exact hz _ (by omega)
  rw [upper]
  congr 1
  funext j
  rw [next, hword]
  rfl

/-- One entry of a page is changed, or what is behind it. -/
theorem upper_update (sub : Bytes → Page → Memory.Table β) {i : Fin 512}
    (hword : ∀ j, j ≠ i → word b p j = word a p j)
    (hsub : ∀ j q, j ≠ i → next a p j = some q → sub b q = sub a q) :
    upper sub b p = (upper sub a p).set i ((next b p i).map (sub b)) := by
  have hentry : (upper sub b p).entry =
      update (upper sub a p).entry i ((next b p i).map (sub b)) := by
    funext j
    by_cases hj : j = i
    · rw [hj, update_self]
      rfl
    · rw [update_of_ne hj]
      show (next b p j).map (sub b) = (next a p j).map (sub a)
      rw [next_congr (hword j hj)]
      cases hn : next a p j with
      | none => rfl
      | some q => rw [Option.map_some, Option.map_some, hsub j q hj hn]
  rw [Memory.Table.set, ← hentry]
  rfl

/-- A change within the pages behind one entry, or in pages that are not in the table. -/
theorem upper_below {i : Fin 512} (hl : Local sub g) (hone : ∀ x, (upper sub a p).weigh (g x) x ≤ 1)
    (hq : next a p i = some q) (hoff : Off P a b)
    (hP : ∀ x, P x → g x (sub a q) ≠ 0 ∨ (upper sub a p).weigh (g x) x = 0) :
    upper sub b p = (upper sub a p).set i (some (sub b q)) ∧ next b p i = some q := by
  have hbelow := upper_entry sub hq
  have hself : ¬ P p := by
    intro hp
    have hpos := weigh_page (upper sub a p) (g p)
    have hle := weigh_entry (x := p) hbelow (g p)
    have h1 := hone p
    rw [show (upper sub a p).page = p from rfl] at hpos hle
    rw [Memory.hit_self] at hle
    rcases hP p hp with h | h <;> omega
  have hnext : next b p i = some q := by
    rw [next_congr (hoff.word hself i)]
    exact hq
  refine ⟨?_, hnext⟩
  have hupd := upper_update sub (i := i) (fun j _ => hoff.word hself j) ?_
  · rw [hnext] at hupd
    exact hupd
  · intro j s hj hs
    refine hl hoff fun x hx => ?_
    have hsum := weigh_entries (x := x) hj (upper_entry sub hs) hbelow (g x)
    have h1 := hone x
    rcases hP x hx with h | h <;> omega

/-- A new page behind an entry that was not valid. -/
theorem upper_install {i : Fin 512} {v : UInt64} (hl : Local sub g) (hc : Clears sub)
    (hone : ∀ x, (upper sub a p).weigh (g x) x ≤ 1) (hfresh : (upper sub a p).weigh (g q) q = 0)
    (hv : (view v).map Pte.page = some q)
    (hoff : Off (· = q) a c) (hz : ∀ k < PGSIZE, c (q * PGSIZE + k) = 0) :
    upper sub (c.setU64 (entryAddr (p * PGSIZE) i) v) p =
        (upper sub a p).set i (some (.cleared q)) ∧
      next (c.setU64 (entryAddr (p * PGSIZE) i) v) p i = some q := by
  have hne : p ≠ q := by
    rintro rfl
    have hpos := weigh_page (upper sub a p) (g p)
    rw [show (upper sub a p).page = p from rfl, hfresh] at hpos
    exact absurd hpos (Nat.lt_irrefl 0)
  have hset : Off (· = p) c (c.setU64 (entryAddr (p * PGSIZE) i) v) := off_setU64 i v
  have hboth : Off (fun x => x = q ∨ x = p) a (c.setU64 (entryAddr (p * PGSIZE) i) v) :=
    (hoff.mono fun x hx => .inl hx).trans (hset.mono fun x hx => .inr hx)
  have hnext : next (c.setU64 (entryAddr (p * PGSIZE) i) v) p i = some q := by
    rw [next, word_setU64_self, hv]
  refine ⟨?_, hnext⟩
  have hupd := upper_update sub (i := i) (a := a)
    (b := c.setU64 (entryAddr (p * PGSIZE) i) v) (p := p) ?_ ?_
  · rw [hnext, Option.map_some, hc fun k hk => ?_] at hupd
    · exact hupd
    · rw [hset q (fun h => hne h.symm) k hk, hz k hk]
  · intro j hj
    rw [word_setU64_ne hj, hoff.word hne]
  · intro j s hj hs
    refine hl hboth fun x hx => ?_
    have hle := weigh_entry (x := x) (upper_entry sub hs) (g x)
    have h1 := hone x
    rcases hx with rfl | rfl
    · omega
    · rw [show (upper sub a x).page = x from rfl, Memory.hit_self] at hle
      omega

end Levels

theorem lowPages_lowAt (x : Page) (p : Page) : lowPages x (lowAt a p) = hit p x := by
  have hzero : ∀ e : Option Pte, e.elim 0 (fun _ => 0) = 0 := by
    intro e
    cases e <;> rfl
  rw [lowPages, Memory.Table.weigh]
  simp only [hzero, Finset.sum_const_zero]
  rfl

theorem local_low : Local lowAt lowPages := by
  intro P a b q hoff hzero
  have hself : ¬ P q := by
    intro hq
    have hz := hzero q hq
    rw [lowPages_lowAt, Memory.hit_self] at hz
    cases hz
  rw [lowAt]
  congr 1
  funext j
  rw [hoff.word hself j]

theorem clears_low : Clears lowAt := by
  intro a q hz
  rw [lowAt]
  congr 1
  funext j
  have hword : word a q j = 0 := by
    refine Bytes.u64_zero fun k hk => ?_
    have hi := entryAddr_le j
    rw [entryAddr, Nat.add_assoc]
    exact hz _ (by omega)
  rw [hword, view_zero]

theorem local_mid : Local midAt midPages := local_upper local_low

theorem local_table : Local tableAt fun x pt => PageTable.tables pt x := local_upper local_mid

/-! ## Places of entries -/

/-- The address of the level-0 entry of an index, if its page is there. -/
def slotOf (pt : PageTable) (i : Index) : Option Nat :=
  (pt.entry i.1).bind fun mid => (mid.entry i.2.1).map fun low =>
    entryAddr (low.page * PGSIZE) i.2.2

/-- The level-0 entry of an index; 0 if there is no page for it. -/
def pteAt (ram : Bytes) (root : Page) (i : Index) : UInt64 :=
  (slotOf (tableAt ram root) i).elim 0 ram.u64

theorem slotOf_eq (h : slotOf pt i = some addr) :
    ∃ mid low, pt.entry i.1 = some mid ∧ mid.entry i.2.1 = some low ∧
      addr = entryAddr (low.page * PGSIZE) i.2.2 := by
  obtain ⟨mid, hmid, h⟩ := Option.bind_eq_some_iff.mp h
  obtain ⟨low, hlow, rfl⟩ := Option.map_eq_some_iff.mp h
  exact ⟨mid, low, hmid, hlow, rfl⟩

theorem slotOf_reached (h : pt.Reached i) : ∃ addr, slotOf pt i = some addr := by
  obtain ⟨mid, low, hmid, hlow⟩ := h
  refine ⟨entryAddr (low.page * PGSIZE) i.2.2, ?_⟩
  rw [slotOf, hmid, Option.bind_some, hlow, Option.map_some]

theorem slotOf_tableAt (h : slotOf (tableAt a root) i = some addr) :
    ∃ q s, next a root i.1 = some q ∧ next a q i.2.1 = some s ∧
      addr = entryAddr (s * PGSIZE) i.2.2 := by
  obtain ⟨mid, low, hmid, hlow, rfl⟩ := slotOf_eq h
  obtain ⟨q, hq, rfl⟩ := Option.map_eq_some_iff.mp hmid
  obtain ⟨s, hs, rfl⟩ := Option.map_eq_some_iff.mp hlow
  exact ⟨q, s, hq, hs, rfl⟩

theorem pteAt_slot (h : slotOf (tableAt a root) i = some addr) :
    pteAt a root i = a.u64 addr := by
  rw [pteAt, h, Option.elim_some]

theorem leaf_tableAt (a : Bytes) (root : Page) (i : Index) :
    (tableAt a root).leaf i = view (pteAt a root i) := by
  have hentry : (tableAt a root).entry i.1 = (next a root i.1).map (midAt a) := rfl
  rw [PageTable.leaf, pteAt, slotOf, hentry]
  cases next a root i.1 with
  | none => exact view_zero.symm
  | some q =>
    have hmid : (midAt a q).entry i.2.1 = (next a q i.2.1).map (lowAt a) := rfl
    rw [Option.map_some, Option.bind_some, Option.bind_some, hmid]
    cases next a q i.2.1 with
    | none => exact view_zero.symm
    | some s => rfl

/-- No page-table page has two places in the table. -/
def Distinct (pt : PageTable) : Prop := ∀ x, pt.tables x ≤ 1

theorem entryAddr_inj {s t : Page} {j k : Fin 512}
    (h : entryAddr (s * PGSIZE) j = entryAddr (t * PGSIZE) k) : s = t ∧ j = k := by
  simp only [entryAddr, PGSIZE] at h
  have hst : @Eq Nat s t := by omega
  exact ⟨hst, Fin.ext (by omega)⟩

/-- Distinct indices have distinct entries. -/
theorem slotOf_inj {j : Index} (hd : Distinct pt)
    (hi : slotOf pt i = some addr) (hj : slotOf pt j = some addr) : i = j := by
  obtain ⟨mid, low, hmid, hlow, rfl⟩ := slotOf_eq hi
  obtain ⟨mid', low', hmid', hlow', haddr⟩ := slotOf_eq hj
  obtain ⟨hpage, h3⟩ := entryAddr_inj haddr
  have hone := hd low.page
  rw [PageTable.tables] at hone
  have hlow1 : 0 < lowPages low.page low := weigh_page low _
  have hlow2 : 0 < lowPages low.page low' := by
    rw [hpage]
    exact weigh_page low' _
  have hmid1 := weigh_entry (x := low.page) hlow (lowPages low.page)
  have hmid2 := weigh_entry (x := low.page) hlow' (lowPages low.page)
  have h1 : i.1 = j.1 := by
    by_contra hne
    have hsum := weigh_entries (x := low.page) hne hmid hmid' (midPages low.page)
    rw [midPages, midPages] at hsum
    omega
  rw [← h1, hmid] at hmid'
  cases hmid'
  have h2 : i.2.1 = j.2.1 := by
    by_contra hne
    have hsum := weigh_entries (x := low.page) hne hlow hlow' (lowPages low.page)
    have hle := weigh_entry (x := low.page) hmid (midPages low.page)
    rw [midPages] at hle
    omega
  exact Prod.ext h1 (Prod.ext h2 h3)

/-- A store to an entry is an update of the table. -/
theorem tableAt_store (hd : Distinct (tableAt a root))
    (hslot : slotOf (tableAt a root) i = some addr) (v : UInt64) :
    tableAt (a.setU64 addr v) root = (tableAt a root).setLeaf i (view v) := by
  obtain ⟨q, s, hq, hs, rfl⟩ := slotOf_tableAt hslot
  have hmid : (tableAt a root).entry i.1 = some (midAt a q) := upper_entry midAt hq
  have hlow : (midAt a q).entry i.2.1 = some (lowAt a s) := upper_entry lowAt hs
  have hoff : Off (· = s) a (a.setU64 (entryAddr (s * PGSIZE) i.2.2) v) := off_setU64 i.2.2 v
  have hleaf : lowAt (a.setU64 (entryAddr (s * PGSIZE) i.2.2) v) s =
      (lowAt a s).set i.2.2 (view v) := by
    rw [lowAt]
    congr 1
    funext j
    by_cases hj : j = i.2.2
    · rw [hj, update_self, word_setU64_self]
    · rw [update_of_ne hj, word_setU64_ne hj]
      rfl
  have hcount : 0 < lowPages s (lowAt a s) := weigh_page (lowAt a s) _
  have hcount' : lowPages s (lowAt a s) ≤ midPages s (midAt a q) := by
    have hle := weigh_entry (x := s) hlow (lowPages s)
    rw [midPages]
    omega
  have hone : ∀ x, (upper lowAt a q).weigh (lowPages x) x ≤ 1 := by
    intro x
    have hle := weigh_entry (x := x) hmid (midPages x)
    have h1 := hd x
    exact (Nat.le_add_right _ _).trans (hle.trans h1)
  have hmid' := (upper_below local_low hone hs hoff (by rintro x rfl; exact .inl hcount.ne')).1
  have htop := (upper_below local_mid hd hq hoff
    (by rintro x rfl; exact .inl (Nat.lt_of_lt_of_le hcount hcount').ne')).1
  rw [PageTable.setLeaf_eq hmid hlow, ← hleaf]
  refine htop.trans ?_
  rw [show midAt (a.setU64 (entryAddr (s * PGSIZE) i.2.2) v) q = _ from hmid']
  rfl

theorem slotOf_setLeaf (hr : pt.Reached i) (e : Option Pte) (j : Index) :
    slotOf (pt.setLeaf i e) j = slotOf pt j := by
  obtain ⟨mid, low, hmid, hlow⟩ := hr
  rw [PageTable.setLeaf_eq hmid hlow, slotOf, slotOf]
  by_cases h1 : j.1 = i.1
  · rw [h1, Memory.Table.entry_set_self, hmid, Option.bind_some, Option.bind_some]
    by_cases h2 : j.2.1 = i.2.1
    · rw [h2, Memory.Table.entry_set_self, hlow, Option.map_some]
      rfl
    · rw [Memory.Table.entry_set_ne h2]
  · rw [Memory.Table.entry_set_ne h1]

theorem reached_of_slotOf (h : slotOf pt i = some addr) :
    pt.Reached i := by
  obtain ⟨mid, low, hmid, hlow, -⟩ := slotOf_eq h
  exact ⟨mid, low, hmid, hlow⟩

theorem pteAt_store (hd : Distinct (tableAt a root))
    (hs : slotOf (tableAt a root) i = some addr) (v : UInt64) :
    pteAt (a.setU64 addr v) root = update (pteAt a root) i v := by
  funext j
  have hslot : slotOf (tableAt (a.setU64 addr v) root) j = slotOf (tableAt a root) j := by
    rw [tableAt_store hd hs, slotOf_setLeaf (reached_of_slotOf hs)]
  rw [pteAt, hslot]
  by_cases hj : j = i
  · rw [hj, hs, update_self, Option.elim_some, Bytes.u64_setU64]
  · rw [update_of_ne hj, pteAt]
    cases hsj : slotOf (tableAt a root) j with
    | none => rfl
    | some addr' =>
      have hne : addr' ≠ addr := fun he => hj (slotOf_inj hd (he ▸ hsj) hs)
      obtain ⟨-, s, -, -, rfl⟩ := slotOf_tableAt hs
      obtain ⟨-, s', -, -, rfl⟩ := slotOf_tableAt hsj
      refine Bytes.u64_setU64_of_disjoint ?_
      simp only [entryAddr, PGSIZE] at hne ⊢
      omega

/-- A page of level 0 is a page of the table, and not one of the levels above. -/
theorem slotOf_page (hd : Distinct pt) (h : slotOf pt i = some addr) :
    ∃ s, addr = entryAddr (s * PGSIZE) i.2.2 ∧ pt.tables s ≠ 0 ∧ s ≠ pt.page ∧
      ∀ j mid, pt.entry j = some mid → s ≠ mid.page := by
  obtain ⟨mid, low, hmid, hlow, rfl⟩ := slotOf_eq h
  have hone := hd low.page
  rw [PageTable.tables] at hone
  have hlow1 : 0 < lowPages low.page low := weigh_page low _
  have hmid1 : lowPages low.page low + hit mid.page low.page ≤ midPages low.page mid :=
    weigh_entry hlow (lowPages low.page)
  have htop := weigh_entry (x := low.page) hmid (midPages low.page)
  refine ⟨low.page, rfl, ?_, ?_, ?_⟩
  · rw [PageTable.tables]
    omega
  · intro he
    rw [← he, Memory.hit_self] at htop
    omega
  · intro j mid' hmid' he
    by_cases hj : i.1 = j
    · rw [← hj, hmid] at hmid'
      cases hmid'
      rw [← he, Memory.hit_self] at hmid1
      omega
    · have hmid2 : 0 < midPages low.page mid' := by
        rw [he]
        exact weigh_page mid' _
      have hsum := weigh_entries (x := low.page) hj hmid hmid' (midPages low.page)
      omega

/-- New pages change no entry: those that were there are not written, and the new ones are clear. -/
theorem pteAt_grow (hd : Distinct (tableAt a root)) (hoff : Off P a b)
    (hP : ∀ s, P s → (tableAt a root).tables s ≠ 0 → s = root ∨
      ∃ j mid, (tableAt a root).entry j = some mid ∧ mid.page = s)
    (hslot : ∀ k, slotOf (tableAt b root) k = slotOf (tableAt a root) k ∨
      slotOf (tableAt a root) k = none ∧
        ∀ addr, slotOf (tableAt b root) k = some addr → b.u64 addr = 0) :
    pteAt b root = pteAt a root := by
  funext k
  rw [pteAt, pteAt]
  rcases hslot k with h | ⟨hnone, hnew⟩
  · rw [h]
    cases hk : slotOf (tableAt a root) k with
    | none => rfl
    | some addr =>
      obtain ⟨s, rfl, hs, hroot, hmid⟩ := slotOf_page hd hk
      have hns : ¬ P s := by
        intro hp
        rcases hP s hp hs with he | ⟨j, mid, hj, he⟩
        · exact hroot he
        · exact hmid j mid hj he.symm
      exact hoff.word hns k.2.2
  · rw [hnone]
    cases hk : slotOf (tableAt b root) k with
    | none => rfl
    | some addr => exact hnew addr hk

end Xv6.Vm
