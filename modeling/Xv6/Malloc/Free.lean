import Xv6.Framework.Linked
import Xv6.Malloc.Blocks

namespace Xv6.Malloc

open Xv6.Framework

namespace Heap

variable {h : Heap} {base bp p : Nat} {fs : List Block} {b : Block} {n : UInt32}

def ptr (h : Heap) (a : Nat) : Nat := (h.mem a).ptr

def size (h : Heap) (a : Nat) : Nat := (h.mem a).size.toNat

theorem setPtr_self {a q : Nat} : (h.setPtr a q).mem a = { h.mem a with ptr := q } :=
  update_self _ _ _

theorem setPtr_of_ne {a q x : Nat} (hx : x ≠ a) : (h.setPtr a q).mem x = h.mem x :=
  update_of_ne hx _ _

@[simp]
theorem ptr_setPtr {a q : Nat} : (h.setPtr a q).ptr = update h.ptr a q := by
  funext x
  by_cases hx : x = a
  · rw [hx, ptr, setPtr_self, update_self]
  · rw [ptr, setPtr_of_ne hx, update_of_ne hx]
    rfl

@[simp]
theorem size_setPtr {a q : Nat} : (h.setPtr a q).size = h.size := by
  funext x
  by_cases hx : x = a
  · rw [hx, size, setPtr_self]
    rfl
  · rw [size, setPtr_of_ne hx]
    rfl

theorem setSize_self {a : Nat} : (h.setSize a n).mem a = { h.mem a with size := n } :=
  update_self _ _ _

theorem setSize_of_ne {a x : Nat} (hx : x ≠ a) : (h.setSize a n).mem x = h.mem x :=
  update_of_ne hx _ _

@[simp]
theorem ptr_setSize {a : Nat} : (h.setSize a n).ptr = h.ptr := by
  funext x
  by_cases hx : x = a
  · rw [hx, ptr, setSize_self]
    rfl
  · rw [ptr, setSize_of_ne hx]
    rfl

@[simp]
theorem size_setSize {a : Nat} :
    (h.setSize a n).size = update h.size a n.toNat := by
  funext x
  by_cases hx : x = a
  · rw [hx, size, setSize_self, update_self]
  · rw [size, setSize_of_ne hx, update_of_ne hx]
    rfl

/-- The headers hold a list of free blocks, in a cycle through the base. -/
structure Holds (h : Heap) (base : Nat) (fs : List Block) : Prop where
  linked : Linked h.ptr base (fs.map Block.addr) base
  sizes : ∀ b ∈ fs, h.size b.addr = b.units
  base : (h.mem base).size = 0

/-- Where the loop of free stops. -/
def Stops (h : Heap) (bp p : Nat) : Prop :=
  p < bp ∧ bp < h.ptr p ∨ h.ptr p ≤ p ∧ (p < bp ∨ bp < h.ptr p)

instance (h : Heap) (bp : Nat) : DecidablePred (h.Stops bp) := fun _ =>
  inferInstanceAs (Decidable (_ ∨ _))

theorem freeLoop_eq_walk (fuel : Nat) : h.freeLoop bp fuel p = walk h.ptr (h.Stops bp) fuel p := by
  induction fuel generalizing p with
  | zero => rfl
  | succ fuel ih =>
    rw [freeLoop, walk]
    by_cases h1 : p < bp ∧ bp < (h.mem p).ptr
    · rw [if_pos h1, if_pos (.inl h1)]
    rw [if_neg h1]
    by_cases h2 : (h.mem p).ptr ≤ p ∧ (p < bp ∨ bp < (h.mem p).ptr)
    · rw [if_pos h2, if_pos (.inr h2)]
    rw [if_neg h2, if_neg fun hs => hs.elim h1 h2, ih]
    rfl

end Heap

/-- In a list that ascends, every member but the last links to a larger one. -/
theorem next_lt {next : Nat → Nat} {a z x : Nat} {l : List Nat} (h : Linked next a l z)
    (hs : (a :: l).Pairwise (· < ·)) (hx : x ∈ a :: l) :
    x = l.getLastD a ∨ next x ∈ l ∧ x < next x := by
  induction l generalizing a with
  | nil => exact .inl (List.mem_singleton.mp hx)
  | cons b l ih =>
    obtain ⟨hab, hs'⟩ := List.pairwise_cons.mp hs
    rcases List.mem_cons.mp hx with rfl | hx
    · refine .inr ⟨h.1 ▸ List.mem_cons_self, ?_⟩
      rw [h.1]
      exact hab b List.mem_cons_self
    · rw [List.getLastD_cons]
      exact (ih h.2 hs' hx).imp_right fun hn => ⟨List.mem_cons_of_mem b hn.1, hn.2⟩

namespace Heap

variable {h h' : Heap} {base bp p x : Nat} {fs l₁ l₂ r : List Block} {b : Block}

/-- Where a block goes: behind the last free block below it, or behind the base. -/
def before (base : Nat) (l₁ : List Block) : Nat := (l₁.map Block.addr).getLastD base

theorem before_mem : before base l₁ ∈ base :: l₁.map Block.addr := List.getLastD_mem_cons

theorem before_mem_append : before base l₁ ∈ base :: (l₁ ++ l₂).map Block.addr := by
  rw [List.map_append]
  exact List.mem_append_left _ before_mem

theorem lt_of_mem (hlt : ∀ a ∈ l₁, a.addr < bp) (hbase : base < bp)
    (hx : x ∈ base :: l₁.map Block.addr) : x < bp := by
  rcases List.mem_cons.mp hx with rfl | hx
  · exact hbase
  · obtain ⟨a, ha, rfl⟩ := List.mem_map.mp hx
    exact hlt a ha

/-- The link from there leads to the first block above, or to the base. -/
theorem Holds.ptr_before (hh : h.Holds base (l₁ ++ l₂)) :
    h.ptr (before base l₁) = ((l₂.map Block.addr).head?).getD base ∧
      Linked h.ptr base (l₁.map Block.addr) (((l₂.map Block.addr).head?).getD base) := by
  have hl := hh.linked
  rw [List.map_append] at hl
  cases l₂ with
  | nil =>
    rw [List.map_nil, List.append_nil] at hl
    exact ⟨hl.last, hl⟩
  | cons c l₂ =>
    obtain ⟨h1, -⟩ := Linked.append.mp hl
    exact ⟨h1.last, h1⟩

/-- free stops behind the blocks below, and nowhere else. -/
theorem Holds.stops_iff (hh : h.Holds base (l₁ ++ l₂)) (ho : Block.Ordered base (l₁ ++ l₂))
    (hbase : base < bp) (hlt : ∀ a ∈ l₁, a.addr < bp) (hgt : ∀ c ∈ l₂, bp < c.addr)
    (hx : x ∈ base :: (l₁ ++ l₂).map Block.addr) : h.Stops bp x ↔ x = before base l₁ := by
  obtain ⟨hlast, hl1⟩ := hh.ptr_before
  obtain ⟨ho1, -, -⟩ := Block.Ordered.append_iff.mp ho
  constructor
  · intro hs
    by_contra hne
    have hx' := hx
    rw [List.map_append, ← List.cons_append] at hx'
    rcases List.mem_append.mp hx' with hx1 | hx2
    · -- below the block, the next one is below it too
      obtain ⟨hn, hlt'⟩ := (next_lt hl1 ho1.addrs hx1).resolve_left hne
      have hnb : h.ptr x < bp := lt_of_mem hlt hbase (List.mem_cons_of_mem _ hn)
      unfold Stops at hs
      omega
    · obtain ⟨c, hc, rfl⟩ := List.mem_map.mp hx2
      have hcb := hgt c hc
      unfold Stops at hs
      rcases next_lt hh.linked ho.addrs hx with hlast' | ⟨-, hlt'⟩
      · have hz := hh.linked.last
        rw [← hlast'] at hz
        omega
      · omega
  · rintro rfl
    have hpb : before base l₁ < bp := lt_of_mem hlt hbase before_mem
    unfold Stops
    rw [hlast]
    cases l₂ with
    | nil =>
      refine .inr ⟨?_, .inl hpb⟩
      have hm : before base l₁ ∈ base :: l₁.map Block.addr := before_mem
      rcases List.mem_cons.mp hm with he | hm
      · exact Nat.le_of_eq he.symm
      · exact Nat.le_of_lt ((List.pairwise_cons.mp ho1.addrs).1 _ hm)
    | cons c l₂ => exact .inl ⟨hpb, hgt c List.mem_cons_self⟩

theorem Holds.cycle (hh : h.Holds base fs) (hfp : h.freep ∈ base :: fs.map Block.addr) :
    ∃ l, Linked h.ptr h.freep l h.freep ∧ (h.freep :: l).Perm (base :: fs.map Block.addr) := by
  rcases List.mem_cons.mp hfp with he | hm
  · exact ⟨_, he ▸ hh.linked, he ▸ .refl _⟩
  · obtain ⟨m₁, m₂, hm⟩ := List.append_of_mem hm
    have hlinked := hh.linked
    rw [hm] at hlinked ⊢
    refine ⟨m₂ ++ base :: m₁, hlinked.rotate, ?_⟩
    rw [← List.cons_append]
    exact List.perm_append_comm

/-- The loop of free ends, and finds the place of the block. -/
theorem Holds.freeLoop (hh : h.Holds base (l₁ ++ l₂)) (ho : Block.Ordered base (l₁ ++ l₂))
    (hfp : h.freep ∈ base :: (l₁ ++ l₂).map Block.addr) (hbase : base < bp)
    (hlt : ∀ a ∈ l₁, a.addr < bp) (hgt : ∀ c ∈ l₂, bp < c.addr) {fuel : Nat}
    (hfuel : (l₁ ++ l₂).length < fuel) : h.freeLoop bp fuel h.freep = some (before base l₁) := by
  rw [freeLoop_eq_walk]
  obtain ⟨l, hl, hperm⟩ := hh.cycle hfp
  have hiff : ∀ x ∈ h.freep :: l, h.Stops bp x ↔ x = before base l₁ := fun x hx =>
    hh.stops_iff ho hbase hlt hgt (hperm.subset hx)
  have hmem : before base l₁ ∈ h.freep :: l := hperm.symm.subset before_mem_append
  have hnodup : (h.freep :: l).Nodup := hperm.symm.nodup ho.nodup
  obtain ⟨m₁, m₂, hm⟩ := List.append_of_mem hmem
  refine walk_eq hl hm ((hiff _ hmem).mpr rfl) (fun x hx hs => ?_) ?_
  · have hxe := (hiff x (hm ▸ List.mem_append_left _ hx)).mp hs
    rw [hm] at hnodup
    exact (List.nodup_append.mp hnodup).2.2 x hx x (hxe ▸ List.mem_cons_self) rfl
  · have hlen := hperm.length_eq
    rw [hm] at hlen
    simp only [List.length_append, List.length_cons, List.length_map] at hlen hfuel
    omega

/-- One half of free: a block comes in front of another, into one with it if they touch. -/
def join (h : Heap) (a q : Nat) : Heap :=
  if h.stop a = q then (h.setSize a ((h.mem a).size + (h.mem q).size)).setPtr a (h.mem q).ptr
  else h.setPtr a q

theorem insert_eq : h.insert bp p = { (h.join bp (h.ptr p)).join p bp with freep := p } := rfl

theorem join_of_ne {a q x : Nat} (hx : x ≠ a) : (h.join a q).mem x = h.mem x := by
  unfold join
  split_ifs
  · rw [setPtr_of_ne hx, setSize_of_ne hx]
  · rw [setPtr_of_ne hx]

theorem toNat_add {x y : UInt32} (h : x.toNat + y.toNat < 2 ^ 32) :
    (x + y).toNat = x.toNat + y.toNat := by
  rw [UInt32.toNat_add, Nat.mod_eq_of_lt h]

theorem ptr_congr (hx : h'.mem x = h.mem x) : h'.ptr x = h.ptr x := by
  rw [ptr, ptr, hx]

theorem size_congr (hx : h'.mem x = h.mem x) : h'.size x = h.size x := by
  rw [size, size, hx]

/-- A chain of blocks in memory, from the first of them to the base. -/
structure Chain (h : Heap) (base : Nat) (b : Block) (r : List Block) : Prop where
  linked : Linked h.ptr b.addr (r.map Block.addr) base
  size : h.size b.addr = b.units
  sizes : ∀ c ∈ r, h.size c.addr = c.units

theorem Chain.congr (hc : h.Chain base b r)
    (hm : ∀ x ∈ b.addr :: r.map Block.addr, h'.mem x = h.mem x) : h'.Chain base b r where
  linked := hc.linked.congr fun x hx => ptr_congr (hm x hx)
  size := (size_congr (hm _ List.mem_cons_self)).trans hc.size
  sizes c hr :=
    (size_congr (hm _ (List.mem_cons_of_mem _ (List.mem_map_of_mem hr)))).trans (hc.sizes c hr)

theorem join_chain {c : Block} (hc : h.Chain base c r) (hb : h.size b.addr = b.units)
    (hne : b.addr ∉ c.addr :: r.map Block.addr) (hsum : b.units + c.units < 2 ^ 32) :
    ∃ b' r', Block.attach b (c :: r) = b' :: r' ∧ b'.addr = b.addr ∧
      (h.join b.addr c.addr).Chain base b' r' := by
  have hother : ∀ x ∈ c.addr :: r.map Block.addr, (h.join b.addr c.addr).mem x = h.mem x :=
    fun x hx => join_of_ne fun he => hne (he ▸ hx)
  have hstop : h.stop b.addr = b.stop := by
    rw [Block.stop, ← hb]
    rfl
  by_cases hs : b.stop = c.addr
  · refine ⟨⟨b.addr, b.units + c.units⟩, r, if_pos hs, rfl, ?_, ?_, fun d hd => ?_⟩
    · -- the link of the block is now the link of the one behind it
      have hself : (h.join b.addr c.addr).ptr b.addr = h.ptr c.addr := by
        rw [join, hstop, if_pos hs, ptr, setPtr_self]
        rfl
      have hl := hc.linked
      cases r with
      | nil => exact hself.trans hl
      | cons d r =>
        refine ⟨hself.trans hl.1, hl.2.congr fun x hx => ptr_congr (hother x ?_)⟩
        exact List.mem_cons_of_mem _ hx
    · rw [join, hstop, if_pos hs, size, setPtr_self, setSize_self]
      show ((h.mem b.addr).size + (h.mem c.addr).size).toNat = b.units + c.units
      have hb' : (h.mem b.addr).size.toNat = b.units := hb
      have hc' : (h.mem c.addr).size.toNat = c.units := hc.size
      rw [toNat_add (by rw [hb', hc']; exact hsum), hb', hc']
    · exact (hc.congr hother).sizes d hd
  · refine ⟨b, c :: r, if_neg hs, rfl, ⟨?_, (hc.congr hother).linked⟩, ?_, fun d hd => ?_⟩
    · rw [join, hstop, if_neg hs, ptr, setPtr_self]
    · rw [join, hstop, if_neg hs, size, setPtr_self]
      exact hb
    · rcases List.mem_cons.mp hd with rfl | hd
      · exact (hc.congr hother).size
      · exact (hc.congr hother).sizes d hd

/-- A block that does not touch what comes behind it. -/
theorem join_linked {a q : Nat} {l : List Nat} (hs : h.stop a ≠ q) (hl : Linked h.ptr q l base)
    (ha : a ∉ q :: l) : Linked (h.join a q).ptr a (q :: l) base ∧ (h.join a q).size a = h.size a := by
  refine ⟨⟨?_, hl.congr fun x hx => ptr_congr (join_of_ne fun he => ha (he ▸ hx))⟩, ?_⟩
  · rw [join, if_neg hs, ptr, setPtr_self]
  · rw [join, if_neg hs, size, setPtr_self]
    rfl

/-- What free leaves: the list with the block, and the other headers. -/
structure Freed (h : Heap) (base : Nat) (fs : List Block) (b : Block) (h' : Heap) (fs' : List Block) :
    Prop where
  holds : h'.Holds base fs'
  released : Block.Released base fs b fs'
  freep : h'.freep ∈ base :: fs'.map Block.addr
  frame : ∀ x ∉ b.addr :: base :: fs.map Block.addr, h'.mem x = h.mem x

/-- The block behind which nothing is free. -/
theorem join_next (hh : h.Holds base (l₁ ++ l₂)) (hb : h.size b.addr = b.units)
    (hne : b.addr ∉ base :: (l₁ ++ l₂).map Block.addr) (hlt : base < b.addr)
    (hsum : b.units + Block.total l₂ < 2 ^ 32) :
    ∃ b' r, Block.attach b l₂ = b' :: r ∧ b'.addr = b.addr ∧
      (h.join b.addr (h.ptr (before base l₁))).Chain base b' r := by
  rw [hh.ptr_before.1]
  obtain ⟨hbase, hnot⟩ := not_or.mp (List.mem_cons.not.mp hne)
  rw [List.map_append, List.mem_append, not_or] at hnot
  cases l₂ with
  | nil =>
    have hs : h.stop b.addr ≠ base := fun he => by
      have : b.addr ≤ h.stop b.addr := Nat.le_add_right _ _
      omega
    refine ⟨b, [], rfl, rfl, ?_, ?_, by simp⟩
    · show (h.join b.addr base).ptr b.addr = base
      rw [join, if_neg hs, ptr, setPtr_self]
    · show (h.join b.addr base).size b.addr = b.units
      rw [join, if_neg hs, size, setPtr_self]
      exact hb
  | cons c r =>
    have hl := hh.linked
    rw [List.map_append] at hl
    have hc : h.Chain base c r := ⟨(Linked.append.mp hl).2, hh.sizes c (by simp), fun d hd =>
      hh.sizes d (by simp [hd])⟩
    rw [Block.total_cons] at hsum
    exact join_chain hc hb hnot.2 (by omega)

theorem Holds.of_mem (hh : h.Holds base fs) (hm : h'.mem = h.mem) : h'.Holds base fs where
  linked := hh.linked.congr fun x _ => ptr_congr (congrFun hm x)
  sizes b hb := (size_congr (congrFun hm b.addr)).trans (hh.sizes b hb)
  base := by rw [hm, hh.base]

/-- A block goes to the front of the list: the base links to it. -/
theorem holds_front {b' : Block} (hbase : (h.mem base).size = 0)
    (hlt : base < b.addr) (haddr : b'.addr = b.addr) (hc : h.Chain base b' r)
    (hnot : base ∉ (b' :: r).map Block.addr) : (h.join base b.addr).Holds base (b' :: r) := by
  have hs : h.stop base ≠ b.addr := by
    rw [stop, hbase]
    exact Nat.ne_of_lt hlt
  have hother : ∀ c ∈ b' :: r, (h.join base b.addr).mem c.addr = h.mem c.addr := fun c hc =>
    join_of_ne fun he => hnot (he ▸ List.mem_map_of_mem hc)
  rw [List.map_cons, haddr] at hnot
  have hl := hc.linked
  rw [haddr] at hl
  refine ⟨?_, fun c hm => ?_, ?_⟩
  · rw [List.map_cons, haddr]
    exact (join_linked hs hl hnot).1
  · rw [size_congr (hother c hm)]
    rcases List.mem_cons.mp hm with rfl | hm
    · exact hc.size
    · exact hc.sizes c hm
  · rw [join, if_neg hs, setPtr_self]
    exact hbase

/-- free takes a block that shares no byte with the list into it. -/
theorem Holds.free (hh : h.Holds base fs) (ho : Block.Ordered base fs)
    (hfp : h.freep ∈ base :: fs.map Block.addr) (hb : h.size b.addr = b.units) (hpos : 0 < b.units)
    (habove : base + HEADER ≤ b.addr) (hd : ∀ c ∈ fs, ∀ x, b.has x → ¬c.has x)
    (hsum : Block.total fs + b.units < 2 ^ 32) {fuel : Nat} (hfuel : fs.length < fuel) :
    ∃ h' fs', h.free fuel (b.addr + HEADER) = some h' ∧ Freed h base fs b h' fs' := by
  obtain ⟨l₁, l₂, rfl, hbelow, habove'⟩ := ho.split hpos hd
  have hlt : base < b.addr := Nat.lt_of_lt_of_le (Nat.lt_add_of_pos_right (by decide)) habove
  have hstop : b.addr < b.stop := by
    unfold Block.stop HEADER
    omega
  have hne : b.addr ∉ base :: (l₁ ++ l₂).map Block.addr := by
    intro hm
    rcases List.mem_cons.mp hm with he | hm
    · exact Nat.ne_of_gt hlt he
    · obtain ⟨c, hc, he⟩ := List.mem_map.mp hm
      exact hd c hc b.addr (Block.has_addr hpos) (he ▸ Block.has_addr (ho.pos c hc))
  have hl1 : ∀ a ∈ l₁, a.addr < b.addr := fun a ha =>
    Nat.lt_of_lt_of_le (ho.lt_stop (List.mem_append_left _ ha)) (hbelow a ha)
  have hl2 : ∀ c ∈ l₂, b.addr < c.addr := fun c hc => Nat.lt_of_lt_of_le hstop (habove' c hc)
  rw [Block.total_append] at hsum
  obtain ⟨b', r, hattach, haddr, hchain⟩ := join_next hh hb hne hlt (by omega)
  have hloop := hh.freeLoop ho hfp hlt hl1 hl2 hfuel
  have hother : ∀ x, x ≠ b.addr → (h.join b.addr (h.ptr (before base l₁))).mem x = h.mem x :=
    fun x hx => join_of_ne hx
  rw [Heap.free, Nat.add_sub_cancel, hloop, Option.map_some, insert_eq]
  generalize h.join b.addr (h.ptr (before base l₁)) = h₁ at hchain hother
  have hframe : ∀ x ∉ b.addr :: base :: (l₁ ++ l₂).map Block.addr,
      (h₁.join (before base l₁) b.addr).mem x = h.mem x := fun x hx => by
    obtain ⟨hxb, hx⟩ := not_or.mp (List.mem_cons.not.mp hx)
    have hxp : x ≠ before base l₁ := fun he => hx (he ▸ before_mem_append)
    rw [join_of_ne hxp, hother x hxb]
  rcases List.eq_nil_or_concat l₁ with rfl | ⟨l₁, a, rfl⟩
  · have hrel := Block.released_front ho hpos habove habove'
    refine ⟨_, _, rfl, Holds.of_mem (h := h₁.join base b.addr) ?_ rfl, hrel, List.mem_cons_self, hframe⟩
    rw [List.nil_append, hattach] at hrel ⊢
    refine holds_front ?_ hlt haddr hchain hrel.ordered.base_not_mem
    rw [hother base (Nat.ne_of_lt hlt), hh.base]
  · rw [List.concat_eq_append, List.append_assoc, List.singleton_append] at *
    have hbefore : before base (l₁ ++ [a]) = a.addr := by simp [before]
    rw [hbefore] at hframe ⊢
    have hab := hl1 a (by simp)
    have hrel := Block.released_behind ho hpos habove (hbelow a (by simp)) habove'
    have hsize : h₁.size a.addr = a.units := by
      rw [size_congr (hother _ (Nat.ne_of_lt hab)), hh.sizes a (by simp)]
    have hout : a.addr ∉ b'.addr :: r.map Block.addr := by
      rw [← List.map_cons, ← hattach]
      intro hm
      obtain ⟨c, hc, he⟩ := List.mem_map.mp hm
      rcases Block.mem_attach hc with hc | hc
      · omega
      · have := hl2 c hc
        omega
    have hunits : b'.units ≤ b.units + Block.total l₂ := by
      rw [← Block.total_attach, hattach]
      exact Block.units_le_total List.mem_cons_self
    rw [Block.total_append, Block.total_cons] at hsum
    obtain ⟨a', r', hattach', haddr', hchain'⟩ := join_chain hchain hsize hout (by omega)
    rw [haddr] at hchain'
    rw [hattach, hattach'] at hrel
    have hsame : ∀ x ∈ base :: l₁.map Block.addr, (h₁.join a.addr b.addr).mem x = h.mem x :=
        fun x hx => by
      have hnd := ho.nodup
      rw [List.map_append] at hnd
      have hxa : x ≠ a.addr := fun he => (List.nodup_append.mp hnd).2.2 x hx a.addr (by simp) he
      have hxb : x ≠ b.addr := fun he => hne (by
        rw [List.map_append]
        exact List.mem_append_left _ (he ▸ hx))
      rw [join_of_ne hxa, hother x hxb]
    have hl := hh.linked
    rw [List.map_append] at hl
    refine ⟨_, _, rfl, Holds.of_mem (h := h₁.join a.addr b.addr) ⟨?_, fun c hc => ?_, ?_⟩ rfl, hrel, ?_,
      hframe⟩
    · rw [List.map_append]
      refine Linked.append.mpr ⟨?_, hchain'.linked⟩
      rw [haddr']
      exact (Linked.append.mp hl).1.congr fun x hx => ptr_congr (hsame x hx)
    · rcases List.mem_append.mp hc with hc | hc
      · rw [size_congr (hsame _ (List.mem_cons_of_mem _ (List.mem_map_of_mem hc))),
          hh.sizes c (by simp [hc])]
      · rcases List.mem_cons.mp hc with rfl | hc
        · exact hchain'.size
        · exact hchain'.sizes c hc
    · rw [hsame base List.mem_cons_self, hh.base]
    · show a.addr ∈ base :: (l₁ ++ a' :: r').map Block.addr
      rw [← haddr']
      simp

end Heap

end Xv6.Malloc
