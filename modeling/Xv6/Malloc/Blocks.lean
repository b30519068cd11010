import Xv6.Malloc.Model

namespace Xv6.Malloc

namespace Block

variable {b c : Block} {l l₁ l₂ : List Block} {base x : Nat}

def Covered (l : List Block) (x : Nat) : Prop := ∃ b ∈ l, b.has x

theorem Apart.not_has (h : b.Apart c) (hb : b.has x) : ¬c.has x := by
  obtain ⟨h1, h2⟩ := hb
  rintro ⟨h3, h4⟩
  rcases h with h | h <;> omega

theorem has_addr (h : 0 < b.units) : b.has b.addr := by
  unfold has stop HEADER
  omega

theorem covered_cons : Covered (b :: l) x ↔ b.has x ∨ Covered l x := by
  simp [Covered]

theorem covered_append : Covered (l₁ ++ l₂) x ↔ Covered l₁ x ∨ Covered l₂ x := by
  simp [Covered, or_and_right, exists_or]

@[simp]
theorem total_nil : total [] = 0 := rfl

@[simp]
theorem total_cons : total (b :: l) = b.units + total l := by
  simp [total]

@[simp]
theorem total_append : total (l₁ ++ l₂) = total l₁ + total l₂ := by
  simp [total]

theorem units_le_total (h : b ∈ l) : b.units ≤ total l := by
  obtain ⟨l₁, l₂, rfl⟩ := List.append_of_mem h
  rw [total_append, total_cons]
  omega

/-- Blocks in the order of their addresses, above the base, with a gap between any two. -/
structure Ordered (base : Nat) (l : List Block) : Prop where
  sorted : l.Pairwise fun b c => b.stop < c.addr
  above : ∀ b ∈ l, base + HEADER ≤ b.addr
  pos : ∀ b ∈ l, 0 < b.units

namespace Ordered

theorem nil : Ordered base [] := ⟨.nil, by simp, by simp⟩

theorem cons_iff : Ordered base (b :: l) ↔
    (∀ c ∈ l, b.stop < c.addr) ∧ base + HEADER ≤ b.addr ∧ 0 < b.units ∧ Ordered base l := by
  constructor
  · intro h
    obtain ⟨h1, h2⟩ := List.pairwise_cons.mp h.sorted
    exact ⟨h1, h.above b List.mem_cons_self, h.pos b List.mem_cons_self, h2, fun c hc =>
      h.above c (List.mem_cons_of_mem b hc), fun c hc => h.pos c (List.mem_cons_of_mem b hc)⟩
  · rintro ⟨h1, h2, h3, h4⟩
    exact ⟨List.pairwise_cons.mpr ⟨h1, h4.sorted⟩, List.forall_mem_cons.mpr ⟨h2, h4.above⟩,
      List.forall_mem_cons.mpr ⟨h3, h4.pos⟩⟩

theorem append_iff : Ordered base (l₁ ++ l₂) ↔
    Ordered base l₁ ∧ Ordered base l₂ ∧ ∀ a ∈ l₁, ∀ c ∈ l₂, a.stop < c.addr := by
  constructor
  · intro h
    obtain ⟨h1, h2, h3⟩ := List.pairwise_append.mp h.sorted
    obtain ⟨h4, h5⟩ := List.forall_mem_append.mp h.above
    obtain ⟨h6, h7⟩ := List.forall_mem_append.mp h.pos
    exact ⟨⟨h1, h4, h6⟩, ⟨h2, h5, h7⟩, h3⟩
  · rintro ⟨h1, h2, h3⟩
    exact ⟨List.pairwise_append.mpr ⟨h1.sorted, h2.sorted, h3⟩,
      List.forall_mem_append.mpr ⟨h1.above, h2.above⟩, List.forall_mem_append.mpr ⟨h1.pos, h2.pos⟩⟩

theorem lt_stop (h : Ordered base l) (hb : b ∈ l) : b.addr < b.stop := by
  have hp := h.pos b hb
  unfold stop HEADER
  omega

theorem addrs (h : Ordered base l) : (base :: l.map addr).Pairwise (· < ·) := by
  refine List.pairwise_cons.mpr ⟨fun a ha => ?_, List.pairwise_map.mpr ?_⟩
  · obtain ⟨b, hb, rfl⟩ := List.mem_map.mp ha
    have := h.above b hb
    unfold HEADER at this
    omega
  · refine h.sorted.imp_of_mem fun {b c} hb _ hbc => ?_
    exact Nat.lt_trans (h.lt_stop hb) hbc

theorem nodup (h : Ordered base l) : (base :: l.map addr).Nodup :=
  h.addrs.imp fun {_ _} hxy => Nat.ne_of_lt hxy

theorem base_not_mem (h : Ordered base l) : base ∉ l.map addr := (List.nodup_cons.mp h.nodup).1

theorem split (h : Ordered base l) (hb : 0 < b.units) (hd : ∀ c ∈ l, ∀ x, b.has x → ¬c.has x) :
    ∃ l₁ l₂, l = l₁ ++ l₂ ∧ (∀ a ∈ l₁, a.stop ≤ b.addr) ∧ ∀ c ∈ l₂, b.stop ≤ c.addr := by
  induction l with
  | nil => exact ⟨[], [], rfl, by simp, by simp⟩
  | cons a l ih =>
    obtain ⟨hlt, -, hpos, hl⟩ := cons_iff.mp h
    have ha := hd a List.mem_cons_self
    have hself : b.has b.addr := has_addr hb
    have haself : a.has a.addr := has_addr hpos
    by_cases hle : b.addr < a.addr
    · have hstop : b.stop ≤ a.addr := by
        by_contra hc
        exact ha a.addr ⟨Nat.le_of_lt hle, Nat.not_le.mp hc⟩ haself
      refine ⟨[], a :: l, rfl, by simp, List.forall_mem_cons.mpr ⟨hstop, fun c hc => ?_⟩⟩
      have := hlt c hc
      have := h.lt_stop List.mem_cons_self
      omega
    · have hstop : a.stop ≤ b.addr := by
        by_contra hc
        exact ha b.addr hself ⟨Nat.not_lt.mp hle, Nat.not_le.mp hc⟩
      obtain ⟨l₁, l₂, rfl, h1, h2⟩ := ih hl fun c hc => hd c (List.mem_cons_of_mem a hc)
      exact ⟨a :: l₁, l₂, rfl, List.forall_mem_cons.mpr ⟨hstop, h1⟩, h2⟩

/-- A list of blocks is not longer than its units. -/
theorem length_le (h : Ordered base l) : l.length ≤ total l := by
  induction l with
  | nil => exact Nat.le_refl _
  | cons b l ih =>
    obtain ⟨-, -, hb, hl⟩ := cons_iff.mp h
    have := ih hl
    rw [List.length_cons, total_cons]
    omega

end Ordered

/-- A block in front of a list, joined to the first block if they touch. -/
def attach (b : Block) : List Block → List Block
  | [] => [b]
  | c :: l => if b.stop = c.addr then ⟨b.addr, b.units + c.units⟩ :: l else b :: c :: l

theorem stop_join : stop ⟨b.addr, b.units + c.units⟩ = b.stop + HEADER * c.units := by
  unfold stop HEADER
  dsimp only
  omega

theorem total_attach : total (attach b l) = b.units + total l := by
  cases l with
  | nil => rfl
  | cons c l =>
    rw [attach]
    split_ifs
    · rw [total_cons, total_cons, Nat.add_assoc]
    · rw [total_cons]

theorem length_attach : (attach b l).length ≤ l.length + 1 := by
  cases l with
  | nil => exact Nat.le_refl _
  | cons c l =>
    rw [attach]
    split_ifs
    · exact Nat.le_succ _
    · exact Nat.le_refl _

theorem covered_attach : Covered (attach b l) x ↔ b.has x ∨ Covered l x := by
  cases l with
  | nil => exact covered_cons
  | cons c l =>
    rw [attach]
    split_ifs with hs
    · rw [covered_cons, covered_cons, ← or_assoc]
      refine or_congr_left ?_
      simp only [has, stop_join]
      have hc : c.stop = c.addr + HEADER * c.units := rfl
      have hle : b.addr ≤ b.stop := Nat.le_add_right _ _
      omega
    · exact covered_cons

theorem fits_attach (b : Block) (l : List Block) : ∃ c ∈ attach b l, b.units ≤ c.units := by
  cases l with
  | nil => exact ⟨b, List.mem_cons_self, Nat.le_refl _⟩
  | cons c l =>
    rw [attach]
    split_ifs
    · exact ⟨_, List.mem_cons_self, Nat.le_add_right _ _⟩
    · exact ⟨b, List.mem_cons_self, Nat.le_refl _⟩

/-- What fits in a list fits after a block was attached. -/
theorem fits_attach_of_mem {n : Nat} (h : ∃ c ∈ l, n ≤ c.units) : ∃ c ∈ attach b l, n ≤ c.units := by
  obtain ⟨c, hc, hn⟩ := h
  cases l with
  | nil => cases hc
  | cons d l =>
    rw [attach]
    split_ifs
    · rcases List.mem_cons.mp hc with rfl | hc
      · exact ⟨_, List.mem_cons_self, Nat.le_add_left_of_le hn⟩
      · exact ⟨c, List.mem_cons_of_mem _ hc, hn⟩
    · exact ⟨c, List.mem_cons_of_mem _ hc, hn⟩

theorem mem_attach (h : c ∈ attach b l) : b.addr ≤ c.addr ∨ c ∈ l := by
  cases l with
  | nil => exact .inl (Nat.le_of_eq (by rw [List.mem_singleton.mp h]))
  | cons d l =>
    rw [attach] at h
    split_ifs at h
    · rcases List.mem_cons.mp h with rfl | h
      · exact .inl (Nat.le_refl _)
      · exact .inr (List.mem_cons_of_mem d h)
    · rcases List.mem_cons.mp h with rfl | h
      · exact .inl (Nat.le_refl _)
      · exact .inr h

theorem ordered_attach (h : Ordered base l) (hb : 0 < b.units) (ha : base + HEADER ≤ b.addr)
    (hl : ∀ c ∈ l, b.stop ≤ c.addr) : Ordered base (attach b l) := by
  cases l with
  | nil => exact Ordered.cons_iff.mpr ⟨by simp, ha, hb, h⟩
  | cons c l =>
    obtain ⟨hlt, hc, hpos, hrest⟩ := Ordered.cons_iff.mp h
    rw [attach]
    split_ifs with hs
    · refine Ordered.cons_iff.mpr ⟨fun d hd => ?_, ha, by simp only; omega, hrest⟩
      rw [stop_join, hs]
      exact hlt d hd
    · refine Ordered.cons_iff.mpr ⟨List.forall_mem_cons.mpr ⟨?_, fun d hd => ?_⟩, ha, hb, h⟩
      · exact Nat.lt_of_le_of_ne (hl c List.mem_cons_self) hs
      · have := hl c List.mem_cons_self
        have := hlt d hd
        have := h.lt_stop List.mem_cons_self
        omega

/-- What becomes of the free blocks when a block is released. -/
structure Released (base : Nat) (l : List Block) (b : Block) (l' : List Block) : Prop where
  ordered : Ordered base l'
  total : total l' = total l + b.units
  covered : ∀ x, Covered l' x ↔ Covered l x ∨ b.has x
  fits : ∃ c ∈ l', b.units ≤ c.units
  length : l'.length ≤ l.length + 1

theorem released_front (h : Ordered base l) (hb : 0 < b.units) (ha : base + HEADER ≤ b.addr)
    (hl : ∀ c ∈ l, b.stop ≤ c.addr) : Released base l b (attach b l) where
  ordered := ordered_attach h hb ha hl
  total := by rw [total_attach, Nat.add_comm]
  covered x := covered_attach.trans or_comm
  fits := fits_attach b l
  length := length_attach

theorem released_behind {a : Block} (h : Ordered base (l₁ ++ a :: l₂)) (hb : 0 < b.units)
    (ha : base + HEADER ≤ b.addr) (h1 : a.stop ≤ b.addr) (h2 : ∀ c ∈ l₂, b.stop ≤ c.addr) :
    Released base (l₁ ++ a :: l₂) b (l₁ ++ attach a (attach b l₂)) := by
  obtain ⟨ho1, ho2, hlt⟩ := Ordered.append_iff.mp h
  obtain ⟨hlt', haa, hpa, ho2'⟩ := Ordered.cons_iff.mp ho2
  refine ⟨Ordered.append_iff.mpr ⟨ho1, ?_, fun d hd c hc => ?_⟩, ?_, fun x => ?_, ?_, ?_⟩
  · refine ordered_attach (ordered_attach ho2' hb ha h2) hpa haa fun c hc => ?_
    rcases mem_attach hc with hc | hc
    · exact Nat.le_trans h1 hc
    · exact Nat.le_of_lt (hlt' c hc)
  · have hda := hlt d hd a List.mem_cons_self
    have hal := ho2.lt_stop List.mem_cons_self
    rcases mem_attach hc with hc | hc
    · omega
    · rcases mem_attach hc with hc | hc
      · omega
      · exact hlt d hd c (List.mem_cons_of_mem a hc)
  · rw [total_append, total_append, total_attach, total_attach, total_cons]
    omega
  · rw [covered_append, covered_append, covered_attach, covered_attach, covered_cons]
    tauto
  · obtain ⟨c, hc, hn⟩ := fits_attach_of_mem (fits_attach b l₂)
    exact ⟨c, List.mem_append_right _ hc, hn⟩
  · have h3 : (attach a (attach b l₂)).length ≤ (attach b l₂).length + 1 := length_attach
    have h4 : (attach b l₂).length ≤ l₂.length + 1 := length_attach
    rw [List.length_append, List.length_append, List.length_cons]
    omega

/-- What becomes of the free blocks when a block is taken from them. -/
structure Taken (base : Nat) (l : List Block) (b : Block) (l' : List Block) : Prop where
  ordered : Ordered base l'
  total : total l = total l' + b.units
  covered : ∀ x, Covered l x ↔ Covered l' x ∨ b.has x
  apart : ∀ x, Covered l' x → ¬b.has x
  above : base + HEADER ≤ b.addr

theorem not_covered_of_ordered (h : Ordered base (l₁ ++ b :: l₂)) (hx : Covered (l₁ ++ l₂) x) :
    ¬b.has x := by
  obtain ⟨-, ho, hlt⟩ := Ordered.append_iff.mp h
  obtain ⟨hlt', -, -, -⟩ := Ordered.cons_iff.mp ho
  rintro ⟨hb1, hb2⟩
  rcases covered_append.mp hx with ⟨c, hc, hc1, hc2⟩ | ⟨c, hc, hc1, hc2⟩
  · have := hlt c hc b List.mem_cons_self
    omega
  · have := hlt' c hc
    omega

theorem taken_all (h : Ordered base (l₁ ++ b :: l₂)) : Taken base (l₁ ++ b :: l₂) b (l₁ ++ l₂) := by
  obtain ⟨ho1, ho, hlt⟩ := Ordered.append_iff.mp h
  obtain ⟨-, -, -, ho2⟩ := Ordered.cons_iff.mp ho
  refine ⟨Ordered.append_iff.mpr ⟨ho1, ho2, fun a ha c hc => hlt a ha c (List.mem_cons_of_mem b hc)⟩,
    ?_, fun x => ?_, fun x hx => not_covered_of_ordered h hx, h.above b (by simp)⟩
  · rw [total_append, total_append, total_cons]
    omega
  · rw [covered_append, covered_append, covered_cons]
    tauto

theorem taken_tail {n : Nat} (h : Ordered base (l₁ ++ b :: l₂)) (hn : 0 < n) (hlt : n < b.units) :
    Taken base (l₁ ++ b :: l₂) ⟨b.addr + HEADER * (b.units - n), n⟩
      (l₁ ++ ⟨b.addr, b.units - n⟩ :: l₂) := by
  obtain ⟨ho1, ho, hlt1⟩ := Ordered.append_iff.mp h
  obtain ⟨hlt2, hab, hpos, ho2⟩ := Ordered.cons_iff.mp ho
  have hstop : stop ⟨b.addr + HEADER * (b.units - n), n⟩ = b.stop := by
    unfold stop HEADER
    dsimp only
    omega
  have hhead : stop ⟨b.addr, b.units - n⟩ = b.addr + HEADER * (b.units - n) := rfl
  have hle : b.addr + HEADER * (b.units - n) < b.stop := by
    unfold stop HEADER
    omega
  refine ⟨Ordered.append_iff.mpr ⟨ho1, Ordered.cons_iff.mpr ⟨fun c hc => ?_, hab, ?_, ho2⟩,
    fun a ha => List.forall_mem_cons.mpr ⟨?_, fun c hc => ?_⟩⟩, ?_, fun x => ?_, fun x hx => ?_, ?_⟩
  · have := hlt2 c hc
    omega
  · show 0 < b.units - n
    omega
  · exact hlt1 a ha b List.mem_cons_self
  · exact hlt1 a ha c (List.mem_cons_of_mem b hc)
  · rw [total_append, total_append, total_cons, total_cons]
    dsimp only
    omega
  · rw [covered_append, covered_append, covered_cons, covered_cons]
    have hb : b.has x ↔ has ⟨b.addr, b.units - n⟩ x ∨
        has ⟨b.addr + HEADER * (b.units - n), n⟩ x := by
      simp only [has]
      omega
    tauto
  · rintro ⟨hx1, hx2⟩
    dsimp only at hx1
    rcases covered_append.mp hx with ⟨c, hc, hc1, hc2⟩ | hx
    · have := hlt1 c hc b List.mem_cons_self
      omega
    · rcases covered_cons.mp hx with ⟨-, hc2⟩ | ⟨c, hc, hc1, hc2⟩
      · omega
      · have := hlt2 c hc
        omega
  · dsimp only
    omega

end Block

end Xv6.Malloc
