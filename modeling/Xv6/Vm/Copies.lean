import Xv6.Vm.Translation

/-! # copyout, copyin and copyinstr

Copies between kernel and user memory, for any user address and any length.
-/

namespace Xv6.Vm

open Xv6.Framework
open Xv6.Memory (Pte PageTable lastUser Within)

variable {r r' r'' : Machine} {root : Page} {i : Index} {a b m n : Nat}

/-- A user page table: its pages, those that it maps for the user and the free ones are different
frames, and user mode cannot reach the kernel's pages at its top. -/
structure UserTable (r : Machine) (root : Page) : Prop where
  within : Within r.mem (tableAt r.ram root)
  kernel : ∀ i, lastUser ≤ vpn i → pteAt r.ram root i &&& PTE_V ≠ 0 →
    pteAt r.ram root i &&& PTE_U = 0
  null : 0 < r.mem.first

/-- The page of an address is mapped with PTE_V and PTE_U. -/
def Readable (r : Machine) (root : Page) (a : Nat) : Prop :=
  pteOf r root a &&& PTE_V ≠ 0 ∧ pteOf r root a &&& PTE_U ≠ 0

/-- The page of an address is mapped with PTE_V, PTE_U and PTE_W. -/
def Writable (r : Machine) (root : Page) (a : Nat) : Prop :=
  pteOf r root a &&& PTE_V ≠ 0 ∧ pteOf r root a &&& PTE_U ≠ 0 ∧ pteOf r root a &&& PTE_W ≠ 0

instance : Decidable (Readable r root a) := inferInstanceAs (Decidable (_ ∧ _))

def phys (r : Machine) (root : Page) (a : Nat) : Nat := PTE2PA (pteOf r root a) + a % PGSIZE

def userByte (r : Machine) (root : Page) (a : Nat) : UInt8 := r.ram (phys r root a)

theorem Writable.readable (h : Writable r root a) : Readable r root a := ⟨h.1, h.2.1⟩

/-! ## Addresses of one page -/

theorem index_congr (h : a / PGSIZE = b / PGSIZE) : index a = index b := by
  have hpx : ∀ level, Memory.PX level a = Memory.PX level b := by
    intro level
    apply Fin.ext
    show a / 2 ^ (12 + 9 * level) % 512 = b / 2 ^ (12 + 9 * level) % 512
    have hdiv : ∀ c, c / 2 ^ (12 + 9 * level) = c / PGSIZE / 2 ^ (9 * level) := by
      intro c
      rw [Nat.div_div_eq_div_mul, Nat.pow_add]
      rfl
    rw [hdiv a, hdiv b, h]
  rw [index, index, hpx, hpx, hpx]

theorem below_congr (h : a / PGSIZE = b / PGSIZE) : a < MAXVA ↔ b < MAXVA := by
  have hmax : MAXVA = 2 ^ 26 * PGSIZE := by decide
  rw [hmax, ← Nat.div_lt_iff_lt_mul (by decide), ← Nat.div_lt_iff_lt_mul (by decide), h]

theorem pteOf_page (h : a / PGSIZE = b / PGSIZE) : pteOf r root a = pteOf r root b := by
  by_cases ha : a < MAXVA
  · rw [pteOf_below r root ha, pteOf_below r root ((below_congr h).mp ha), index_congr h]
  · have hb : ¬ b < MAXVA := fun hb => ha ((below_congr h).mpr hb)
    rw [pteOf_above r root (Nat.not_lt.mp ha), pteOf_above r root (Nat.not_lt.mp hb)]

theorem page_add (h : a % PGSIZE + n < PGSIZE) : (a + n) / PGSIZE = a / PGSIZE := by
  simp only [PGSIZE] at h ⊢
  omega

theorem phys_add (h : a % PGSIZE + n < PGSIZE) : phys r root (a + n) = phys r root a + n := by
  rw [phys, phys, pteOf_page (page_add h)]
  simp only [PGSIZE] at h ⊢
  omega

theorem phys_congr (h : pteAt r'.ram root = pteAt r.ram root) : phys r' root = phys r root := by
  funext x
  rw [phys, phys, pteOf_congr h]

/-! ## User pages -/

theorem Readable.below (h : Readable r root a) : a < MAXVA := by
  by_contra hc
  rw [Readable, pteOf_above r root (Nat.not_lt.mp hc)] at h
  exact h.1 UInt64.zero_and

theorem UserTable.leaf (hu : UserTable r root) (h : Readable r root a) :
    ∃ pte, (tableAt r.ram root).leaf (index a) = some pte ∧ vpn (index a) < lastUser ∧
      PTE2PA (pteOf r root a) = pte.page * PGSIZE := by
  have ha := h.below
  rw [Readable, pteOf_below r root ha] at h
  obtain ⟨hv, hbit⟩ := h
  refine ⟨⟨PTE2PA (pteAt r.ram root (index a)) / PGSIZE, permOf (pteAt r.ram root (index a))⟩,
    ?_, ?_, ?_⟩
  · rw [leaf_tableAt, view, if_pos hv]
  · by_contra hc
    exact hbit (hu.kernel _ (Nat.not_lt.mp hc) hv)
  · rw [pteOf_below r root ha]
    exact (PTE2PA_page _).symm

/-- A user page is a frame of its own. -/
theorem UserTable.page (hu : UserTable r root) {pte : Pte} (hi : vpn i < lastUser)
    (h : (tableAt r.ram root).leaf i = some pte) :
    (tableAt r.ram root).tables pte.page = 0 ∧ 0 < pte.page := by
  have hw := hu.within pte.page
  have hle := Memory.hit_le_user hi h pte.page
  have hframe := r.mem.frame_le pte.page
  rw [Memory.hit_self] at hle
  refine ⟨by omega, ?_⟩
  have hpos : r.mem.frame pte.page ≠ 0 := by omega
  by_contra hc
  refine hpos (if_neg fun hb => ?_)
  exact hc (Nat.lt_of_lt_of_le hu.null hb.1)

/-- Different user addresses are different bytes of memory. -/
theorem UserTable.phys_inj (hu : UserTable r root) (ha : Readable r root a) (hb : Readable r root b)
    (h : phys r root a = phys r root b) : a = b := by
  obtain ⟨pte, hleaf, hi, hpa⟩ := hu.leaf ha
  obtain ⟨pte', hleaf', hi', hpa'⟩ := hu.leaf hb
  rw [phys, phys, hpa, hpa'] at h
  have hpage : @Eq Nat pte.page pte'.page := by
    have hlt := Nat.mod_lt a (show 0 < PGSIZE by decide)
    have hlt' := Nat.mod_lt b (show 0 < PGSIZE by decide)
    simp only [PGSIZE] at h hlt hlt'
    omega
  have hoff : a % PGSIZE = b % PGSIZE := by
    rw [hpage] at h
    exact Nat.add_left_cancel h
  have hindex : index a = index b := by
    by_contra hne
    have hsum := add_le_sum_univ
      (fun j => Memory.ownLeaf pte.page j ((tableAt r.ram root).leaf j)) hne
    have hw := hu.within pte.page
    have hframe := r.mem.frame_le pte.page
    rw [PageTable.user] at hw
    rw [hleaf, hleaf', Memory.ownLeaf_some hi, Memory.ownLeaf_some hi', ← hpage,
      Memory.hit_self] at hsum
    omega
  have hdiv : a / PGSIZE = b / PGSIZE := by
    rw [← Memory.vpn_index ha.below, ← Memory.vpn_index hb.below, hindex]
  rw [← Nat.div_add_mod a PGSIZE, ← Nat.div_add_mod b PGSIZE, hdiv, hoff]

/-! ## copyout -/

/-- `m` bytes are at user address `a` on, and nothing else has changed. -/
structure CopiedOut (r : Machine) (root : Page) (a : Nat) (src : Bytes) (m : Nat) (r' : Machine) :
    Prop where
  mem : r'.mem = r.mem
  table : tableAt r'.ram root = tableAt r.ram root
  pte : pteAt r'.ram root = pteAt r.ram root
  writable : ∀ k < m, Writable r root (a + k)
  bytes : ∀ k < m, userByte r' root (a + k) = src k
  rest : ∀ x, (∀ k < m, x ≠ phys r root (a + k)) → r'.ram x = r.ram x

namespace CopiedOut

variable {src : Bytes}

theorem zero (r : Machine) (root : Page) (a : Nat) (src : Bytes) : CopiedOut r root a src 0 r :=
  ⟨rfl, rfl, rfl, nofun, nofun, fun _ _ => rfl⟩

theorem pteOf (h : CopiedOut r root a src m r') : Vm.pteOf r' root = Vm.pteOf r root :=
  pteOf_congr h.pte

theorem phys (h : CopiedOut r root a src m r') : Vm.phys r' root = Vm.phys r root :=
  phys_congr h.pte

theorem writable_iff (h : CopiedOut r root a src m r') : Writable r' root b ↔ Writable r root b := by
  rw [Writable, Writable, h.pteOf]

theorem userTable (h : CopiedOut r root a src m r') (hu : UserTable r root) : UserTable r' root := by
  refine ⟨?_, ?_, ?_⟩
  · rw [h.mem, h.table]
    exact hu.within
  · rw [h.pte]
    exact hu.kernel
  · rw [h.mem]
    exact hu.null

/-- A move within a user page. -/
theorem of_move (hu : UserTable r root) (hw : Writable r root a) (hn : a % PGSIZE + n ≤ PGSIZE) :
    CopiedOut r root a src n (r.move (Vm.phys r root a) src n) := by
  obtain ⟨pte, hleaf, hi, hpa⟩ := hu.leaf hw.readable
  have hoff : Off (· = pte.page) r.ram (r.ram.copy (Vm.phys r root a) n src) := by
    rw [Vm.phys, hpa]
    exact off_copy src hn
  have hap : Apart r.mem (tableAt r.ram root) := fun x => (Nat.le_add_right _ _).trans (hu.within x)
  obtain ⟨htable, hpte⟩ := pteAt_off hap.distinct hoff (by
    rintro x rfl
    exact (hu.page hi hleaf).1)
  have hpte : pteAt (r.move (Vm.phys r root a) src n).ram root = pteAt r.ram root := hpte
  have hphys : ∀ k < n, Vm.phys r root (a + k) = Vm.phys r root a + k :=
    fun k hk => phys_add (by omega)
  refine ⟨rfl, htable, hpte, fun k hk => ?_, fun k hk => ?_, fun x hx => ?_⟩
  · have hpage : (a + k) / PGSIZE = a / PGSIZE := page_add (by omega)
    rw [Writable, pteOf_page hpage]
    exact hw
  · rw [userByte, phys_congr hpte, hphys k hk]
    exact Bytes.copy_inside hk
  · refine Bytes.copy_outside ?_
    by_contra hc
    refine hx (x - Vm.phys r root a) (by omega) ?_
    rw [hphys _ (by omega)]
    omega

theorem trans (hu : UserTable r root) (h : CopiedOut r root a src n r')
    (h' : CopiedOut r' root b (fun k => src (n + k)) m r'') (hb : m ≠ 0 → b = a + n) :
    CopiedOut r root a src (n + m) r'' := by
  have hlater : ∀ k, n ≤ k → k < n + m → ∃ j < m, k = n + j ∧ a + k = b + j := by
    intro k h1 h2
    exact ⟨k - n, by omega, by omega, by omega⟩
  have hw : ∀ k < n + m, Writable r root (a + k) := by
    intro k hk
    by_cases h1 : k < n
    · exact h.writable k h1
    · obtain ⟨j, hj, -, hab⟩ := hlater k (Nat.not_lt.mp h1) hk
      rw [hab, ← h.writable_iff]
      exact h'.writable j hj
  refine ⟨h'.mem.trans h.mem, h'.table.trans h.table, h'.pte.trans h.pte, hw, fun k hk => ?_,
    fun x hx => ?_⟩
  · by_cases h1 : k < n
    · -- the second copy is elsewhere
      rw [userByte, h'.phys, h'.rest]
      · exact h.bytes k h1
      · intro j hj he
        have hab : b + j = a + (n + j) := by rw [hb (by omega), Nat.add_assoc]
        rw [h.phys, hab] at he
        have hne := hu.phys_inj (hw k hk).readable (hw (n + j) (by omega)).readable he
        omega
    · obtain ⟨j, hj, rfl, hab⟩ := hlater k (Nat.not_lt.mp h1) hk
      rw [hab]
      exact h'.bytes j hj
  · rw [h'.rest x, h.rest x]
    · exact fun k hk => hx k (by omega)
    · intro j hj
      rw [h.phys, hb (by omega), Nat.add_assoc]
      exact hx (n + j) (by omega)

end CopiedOut

theorem writable_of_bits {a : Nat} (h : ¬(pteOf r root a &&& PTE_V = 0 ∨ pteOf r root a &&& PTE_U = 0 ∨
    pteOf r root a &&& PTE_W = 0)) : Writable r root a := by
  simp only [not_or] at h
  exact h

theorem rounddown_page (va : UInt64) : (PGROUNDDOWN va).toNat / PGSIZE = va.toNat / PGSIZE := by
  rw [PGROUNDDOWN_toNat]
  exact Nat.mul_div_cancel _ (by decide)

theorem chunk_page (va len : UInt64) : va.toNat % PGSIZE + (chunk va len).toNat ≤ PGSIZE := by
  rw [chunk_toNat]
  simp only [PGSIZE]
  omega

/-- The end of the part that one turn of a copy loop moves. -/
theorem next_chunk {va len : UInt64} (hva : va.toNat < MAXVA) (hlen : (len - chunk va len).toNat ≠ 0) :
    (PGROUNDDOWN va + 4096).toNat = va.toNat + (chunk va len).toNat := by
  have hmax : MAXVA = 2 ^ 38 := rfl
  have h4096 : (4096 : UInt64).toNat = 4096 := rfl
  rw [UInt64.toNat_sub_of_le _ _ (chunk_le va len), chunk_toNat] at hlen
  rw [UInt64.toNat_add, PGROUNDDOWN_toNat, chunk_toNat]
  omega

theorem copyout_returns (src : Bytes) (dstva len : UInt64) (hu : UserTable r root) :
    Returns (copyout (root * PGSIZE) dstva src len) r fun ok r' =>
      ∃ m ≤ len.toNat, CopiedOut r root dstva.toNat src m r' ∧ (ok = true → m = len.toNat) ∧
        (ok = false → m < len.toNat ∧ ¬ Writable r root (dstva.toNat + m)) := by
  induction hN : len.toNat using Nat.strong_induction_on generalizing r src dstva len with
  | _ N ih =>
    subst hN
    rw [copyout]
    split
    · rename_i hlen
      exact Returns.pure ⟨0, Nat.zero_le _, .zero r root _ src, fun _ => by rw [hlen]; rfl, nofun⟩
    rename_i hlen
    have hpage := rounddown_page dstva
    have hpos : 0 < len.toNat := Nat.pos_of_ne_zero fun hz => hlen (UInt64.toNat.inj hz)
    -- what the loop leaves when it stops in this turn
    have hstop : ¬ Writable r root dstva.toNat → ∃ m ≤ len.toNat,
        CopiedOut r root dstva.toNat src m r ∧ (false = true → m = len.toNat) ∧
          (false = false → m < len.toNat ∧ ¬ Writable r root (dstva.toNat + m)) :=
      fun hw => ⟨0, Nat.zero_le _, .zero r root _ src, nofun, fun _ => ⟨hpos, hw⟩⟩
    dsimp only
    split
    · rename_i hmax
      refine Returns.pure (hstop fun hw => ?_)
      have hbelow := (below_congr hpage).mpr hw.readable.below
      omega
    rename_i hmax
    have hmax := Nat.not_le.mp hmax
    have hbelow := (below_congr hpage).mp hmax
    refine Returns.bind_ok (walk_lookup r root hmax) ?_
    rw [index_congr hpage]
    cases hs : slotOf (tableAt r.ram root) (index dstva.toNat) with
    | none =>
      refine Returns.pure (hstop fun hw => ?_)
      rw [Writable, pteOf_below r root hbelow, pteAt, hs] at hw
      exact hw.1 UInt64.zero_and
    | some addr =>
      have hload : load64 addr r = .ok (pteOf r root dstva.toNat, r) := by
        rw [pteOf_below r root hbelow, pteAt_slot hs]
        rfl
      refine Returns.bind_ok hload ?_
      split
      · rename_i hbits
        refine Returns.pure (hstop fun hw => ?_)
        rcases hbits with h | h | h
        · exact hw.1 h
        · exact hw.2.1 h
        · exact hw.2.2 h
      · rename_i hbits
        have hw := writable_of_bits hbits
        have haddr : PTE2PA (pteOf r root dstva.toNat) + (dstva - PGROUNDDOWN dstva).toNat =
            phys r root dstva.toNat := by
          rw [offset_toNat]
          rfl
        have hmove : CopiedOut r root dstva.toNat src (chunk dstva len).toNat _ :=
          CopiedOut.of_move hu hw (chunk_page dstva len)
        rw [haddr]
        refine Returns.bind_ok (memmove_eq _ _ _ _) ?_
        refine (ih _ (sub_chunk_lt dstva hlen) _ _ _ (hmove.userTable hu) rfl).mono ?_
        rintro ok r' ⟨m, hm, hcopy, htrue, hfalse⟩
        have hsub := UInt64.toNat_sub_of_le _ _ (chunk_le dstva len)
        have hle := UInt64.le_iff_toNat_le.mp (chunk_le dstva len)
        have hnext : m ≠ 0 ∨ ok = false → (PGROUNDDOWN dstva + 4096).toNat =
            dstva.toNat + (chunk dstva len).toNat := by
          intro h
          refine next_chunk hbelow ?_
          rcases h with h | h
          · omega
          · have hlt := (hfalse h).1
            omega
        refine ⟨(chunk dstva len).toNat + m, by omega,
          hmove.trans hu hcopy fun h => hnext (.inl h), fun h => ?_, fun h => ?_⟩
        · rw [htrue h]
          omega
        · obtain ⟨hlt, hnot⟩ := hfalse h
          refine ⟨by omega, fun hw' => hnot ?_⟩
          rw [hmove.writable_iff, hnext (.inr h), Nat.add_assoc]
          exact hw'

/-! ## copyin -/

theorem readable_page (h : a / PGSIZE = b / PGSIZE) : Readable r root a ↔ Readable r root b := by
  rw [Readable, Readable, pteOf_page h]

theorem walkaddr_eq (r : Machine) (root : Page) (va : Nat) :
    walkaddr (root * PGSIZE) va r =
      .ok (if Readable r root va then PTE2PA (pteOf r root va) else 0, r) := by
  rw [walkaddr]
  by_cases hva : MAXVA ≤ va
  · rw [if_pos hva, if_neg fun h => Nat.not_le.mpr h.below hva]
    rfl
  rw [if_neg hva, run_bind (walk_lookup r root (Nat.not_le.mp hva))]
  cases hs : slotOf (tableAt r.ram root) (index va) with
  | none =>
    rw [if_neg]
    · rfl
    · rw [Readable, pteOf_below r root (Nat.not_le.mp hva), pteAt, hs]
      exact fun h => h.1 UInt64.zero_and
  | some addr =>
    have hload : load64 addr r = .ok (pteOf r root va, r) := by
      rw [pteOf_below r root (Nat.not_le.mp hva), pteAt_slot hs]
      rfl
    dsimp only
    rw [run_bind hload]
    by_cases hv : pteOf r root va &&& PTE_V = 0
    · rw [if_pos hv, if_neg fun h => h.1 hv]
      rfl
    by_cases hb : pteOf r root va &&& PTE_U = 0
    · rw [if_neg hv, if_pos hb, if_neg fun h => h.2 hb]
      rfl
    · rw [if_neg hv, if_neg hb, if_pos ⟨hv, hb⟩]
      rfl

theorem UserTable.ne_zero (hu : UserTable r root) (h : Readable r root a) :
    PTE2PA (pteOf r root a) ≠ 0 := by
  obtain ⟨pte, hleaf, hi, hpa⟩ := hu.leaf h
  rw [hpa]
  exact Nat.mul_ne_zero (hu.page hi hleaf).2.ne' (by decide)

def userBytes (r : Machine) (root : Page) (a m : Nat) : List UInt8 :=
  (List.range m).map fun k => userByte r root (a + k)

theorem userBytes_append (hb : m ≠ 0 → b = a + n) :
    userBytes r root a n ++ userBytes r root b m = userBytes r root a (n + m) := by
  by_cases hm : m = 0
  · rw [hm]
    exact List.append_nil _
  · rw [hb hm, userBytes, userBytes, userBytes, List.range_add, List.map_append, List.map_map]
    simp only [Function.comp_def, Nat.add_assoc]

theorem readable_append (h : ∀ k < n, Readable r root (a + k)) (h' : ∀ k < m, Readable r root (b + k))
    (hb : m ≠ 0 → b = a + n) : ∀ k < n + m, Readable r root (a + k) := by
  intro k hk
  by_cases h1 : k < n
  · exact h k h1
  · have hk' := h' (k - n) (by omega)
    rw [hb (by omega), Nat.add_assoc, show n + (k - n) = k by omega] at hk'
    exact hk'

theorem userBytes_page (h : a % PGSIZE + n ≤ PGSIZE) :
    r.ram.slice (phys r root a) n = userBytes r root a n := by
  refine List.map_congr_left fun k hk => ?_
  have hk := List.mem_range.mp hk
  rw [userByte, phys_add (by omega)]

theorem readable_chunk {va len : UInt64} (h : Readable r root va.toNat) :
    ∀ k < (chunk va len).toNat, Readable r root (va.toNat + k) := by
  intro k hk
  rw [chunk_toNat] at hk
  have hpage : (va.toNat + k) / PGSIZE = va.toNat / PGSIZE := page_add (by simp only [PGSIZE]; omega)
  exact (readable_page hpage).mpr h

/-- The address that a turn of copyin reads from, if the page is there. -/
theorem walkaddr_turn (hu : UserTable r root) (va : UInt64) :
    ∃ pa, walkaddr (root * PGSIZE) (PGROUNDDOWN va).toNat r = .ok (pa, r) ∧
      (pa = 0 ∧ ¬ Readable r root va.toNat ∨ pa ≠ 0 ∧ Readable r root va.toNat ∧
        pa + (va - PGROUNDDOWN va).toNat = phys r root va.toNat) := by
  refine ⟨_, walkaddr_eq r root _, ?_⟩
  rw [pteOf_page (rounddown_page va), offset_toNat]
  by_cases h : Readable r root va.toNat
  · rw [if_pos ((readable_page (rounddown_page va)).mpr h)]
    exact .inr ⟨hu.ne_zero h, h, rfl⟩
  · rw [if_neg fun hc => h ((readable_page (rounddown_page va)).mp hc)]
    exact .inl ⟨rfl, h⟩

theorem copyin_returns (srcva len : UInt64) (hu : UserTable r root) :
    Returns (copyin (root * PGSIZE) srcva len) r fun s r' =>
      r' = r ∧ ∃ m ≤ len.toNat, s.1 = userBytes r root srcva.toNat m ∧
        (∀ k < m, Readable r root (srcva.toNat + k)) ∧ (s.2 = true → m = len.toNat) ∧
        (s.2 = false → m < len.toNat ∧ ¬ Readable r root (srcva.toNat + m)) := by
  induction hN : len.toNat using Nat.strong_induction_on generalizing srcva len with
  | _ N ih =>
    subst hN
    rw [copyin]
    split
    · rename_i hlen
      exact Returns.pure ⟨rfl, 0, Nat.zero_le _, rfl, nofun, fun _ => by rw [hlen]; rfl, nofun⟩
    rename_i hlen
    have hpos : 0 < len.toNat := Nat.pos_of_ne_zero fun hz => hlen (UInt64.toNat.inj hz)
    obtain ⟨pa, hwalk, hpa⟩ := walkaddr_turn hu srcva
    refine Returns.bind_ok hwalk ?_
    rcases hpa with ⟨hpa, hnot⟩ | ⟨hpa, hread, haddr⟩
    · rw [if_pos hpa]
      exact Returns.pure ⟨rfl, 0, Nat.zero_le _, rfl, nofun, nofun, fun _ => ⟨hpos, hnot⟩⟩
    rw [if_neg hpa]
    refine Returns.bind_ok (show (get : Kernel Machine) r = .ok (r, r) from rfl) ?_
    refine Returns.bind (ih _ (sub_chunk_lt srcva hlen) _ _ rfl) ?_
    rintro ⟨rest, ok⟩ r' ⟨rfl, m, hm, hrest, hreads, htrue, hfalse⟩
    simp only at hrest htrue hfalse
    have hsub := UInt64.toNat_sub_of_le _ _ (chunk_le srcva len)
    have hle := UInt64.le_iff_toNat_le.mp (chunk_le srcva len)
    have hnext : m ≠ 0 ∨ ok = false → (PGROUNDDOWN srcva + 4096).toNat =
        srcva.toNat + (chunk srcva len).toNat := by
      intro h
      refine next_chunk hread.below ?_
      rcases h with h | h
      · omega
      · have hlt := (hfalse h).1
        omega
    rw [haddr, userBytes_page (chunk_page srcva len), hrest]
    refine Returns.pure ⟨rfl, (chunk srcva len).toNat + m, by omega,
      userBytes_append fun h => hnext (.inl h),
      readable_append (readable_chunk hread) hreads fun h => hnext (.inl h), fun h => ?_, fun h => ?_⟩
    · rw [htrue h]
      omega
    · obtain ⟨hlt, hnot⟩ := hfalse h
      rw [hnext (.inr h), Nat.add_assoc] at hnot
      exact ⟨by omega, hnot⟩

/-! ## copyinstr -/

/-- Where the string at an address ends. -/
def EndsAt (f : Nat → UInt8) (j : Nat) : Prop := f j = 0 ∧ ∀ k < j, f k ≠ 0

theorem scan_spec (ram : Bytes) (n : Nat) :
    ∀ p, ∃ m ≤ n, (scan ram p n).1 = (List.range m).map (fun k => ram (p + k)) ∧
      ((scan ram p n).2 = true → ∃ j, m = j + 1 ∧ EndsAt (fun k => ram (p + k)) j) ∧
      ((scan ram p n).2 = false → m = n ∧ ∀ k < n, ram (p + k) ≠ 0) := by
  induction n with
  | zero =>
    intro p
    exact ⟨0, le_rfl, rfl, nofun, fun _ => ⟨rfl, nofun⟩⟩
  | succ n ih =>
    intro p
    rw [scan]
    by_cases hp : ram p = 0
    · rw [if_pos hp]
      refine ⟨1, by omega, ?_, fun _ => ⟨0, rfl, hp, nofun⟩, nofun⟩
      show [0] = [ram (p + 0)]
      rw [Nat.add_zero, hp]
    · rw [if_neg hp]
      obtain ⟨m, hm, hbytes, htrue, hfalse⟩ := ih (p + 1)
      have hshift : ∀ k, ram (p + 1 + k) = ram (p + (k + 1)) := by
        intro k
        rw [Nat.add_assoc, Nat.add_comm 1 k]
      refine ⟨m + 1, by omega, ?_, fun h => ?_, fun h => ?_⟩
      · show ram p :: (scan ram (p + 1) n).1 = _
        rw [hbytes, List.range_succ_eq_map, List.map_cons, List.map_map]
        simp only [Function.comp_def, hshift, Nat.add_zero]
      · obtain ⟨j, rfl, hz, hne⟩ := htrue h
        refine ⟨j + 1, rfl, (hshift j).symm.trans hz, fun k hk => ?_⟩
        cases k with
        | zero => exact hp
        | succ k => exact fun he => hne k (by omega) ((hshift k).trans he)
      · obtain ⟨rfl, hne⟩ := hfalse h
        refine ⟨rfl, fun k hk => ?_⟩
        cases k with
        | zero => exact hp
        | succ k =>
          rw [← hshift]
          exact hne k (by omega)

theorem copyinstr_returns (srcva max : UInt64) (hu : UserTable r root) :
    Returns (copyinstr (root * PGSIZE) srcva max) r fun s r' =>
      r' = r ∧ ∃ m ≤ max.toNat, s.1 = userBytes r root srcva.toNat m ∧
        (∀ k < m, Readable r root (srcva.toNat + k)) ∧
        (s.2 = true → ∃ j, m = j + 1 ∧ EndsAt (fun k => userByte r root (srcva.toNat + k)) j) ∧
        (s.2 = false → (∀ k < m, userByte r root (srcva.toNat + k) ≠ 0) ∧
          (m < max.toNat → ¬ Readable r root (srcva.toNat + m))) := by
  induction hN : max.toNat using Nat.strong_induction_on generalizing srcva max with
  | _ N ih =>
    subst hN
    rw [copyinstr]
    split
    · rename_i hmax
      refine Returns.pure ⟨rfl, 0, Nat.zero_le _, rfl, nofun, nofun, fun _ => ⟨nofun, fun h => ?_⟩⟩
      rw [hmax] at h
      exact absurd h (Nat.lt_irrefl 0)
    rename_i hmax
    dsimp only
    obtain ⟨pa, hwalk, hpa⟩ := walkaddr_turn hu srcva
    refine Returns.bind_ok hwalk ?_
    rcases hpa with ⟨hpa, hnot⟩ | ⟨hpa, hread, haddr⟩
    · rw [if_pos hpa]
      exact Returns.pure ⟨rfl, 0, Nat.zero_le _, rfl, nofun, nofun, fun _ => ⟨nofun, fun _ => hnot⟩⟩
    rw [if_neg hpa]
    refine Returns.bind_ok (show (get : Kernel Machine) r = .ok (r, r) from rfl) ?_
    rw [haddr]
    obtain ⟨m, hm, hbytes, htrue, hfalse⟩ :=
      scan_spec r.ram (chunk srcva max).toNat (phys r root srcva.toNat)
    have hpage := chunk_page srcva max
    have hle := UInt64.le_iff_toNat_le.mp (chunk_le srcva max)
    have hbyte : ∀ k < (chunk srcva max).toNat,
        r.ram (phys r root srcva.toNat + k) = userByte r root (srcva.toNat + k) := by
      intro k hk
      rw [userByte, phys_add (by omega)]
    have hfirst : (scan r.ram (phys r root srcva.toNat) (chunk srcva max).toNat).1 =
        userBytes r root srcva.toNat m :=
      hbytes.trans (userBytes_page (by omega))
    have hreads : ∀ k < (chunk srcva max).toNat, Readable r root (srcva.toNat + k) :=
      readable_chunk hread
    split
    · rename_i hgot
      obtain ⟨j, rfl, hz, hne⟩ := htrue hgot
      refine Returns.pure ⟨rfl, j + 1, hm.trans hle, hfirst, fun k hk => hreads k (by omega),
        fun _ => ⟨j, rfl, ?_, fun k hk => ?_⟩, fun h => ?_⟩
      · exact (hbyte j (by omega)).symm.trans hz
      · exact fun he => hne k hk ((hbyte k (by omega)).trans he)
      · rw [hgot] at h
        cases h
    · rename_i hgot
      obtain ⟨hall, hne⟩ := hfalse (Bool.eq_false_iff.mpr hgot)
      rw [hall] at hfirst
      refine Returns.bind (ih _ (sub_chunk_lt srcva hmax) _ _ rfl) ?_
      rintro ⟨rest, ok⟩ r' ⟨rfl, m, hm, hrest, hreads', htrue, hfalse⟩
      have hsub := UInt64.toNat_sub_of_le _ _ (chunk_le srcva max)
      have hnext : max.toNat - (chunk srcva max).toNat ≠ 0 → (PGROUNDDOWN srcva + 4096).toNat =
          srcva.toNat + (chunk srcva max).toNat := by
        intro h
        refine next_chunk hread.below ?_
        rw [hsub]
        exact h
      have hnext' : m ≠ 0 → (PGROUNDDOWN srcva + 4096).toNat =
          srcva.toNat + (chunk srcva max).toNat := fun h => hnext (by omega)
      -- the bytes of the rest, counted from the start
      have hshift : ∀ k < m, userByte r' root (srcva.toNat + ((chunk srcva max).toNat + k)) =
          userByte r' root ((PGROUNDDOWN srcva + 4096).toNat + k) := by
        intro k hk
        rw [hnext' (by omega), Nat.add_assoc]
      have hne : ∀ b ≤ m, (∀ k < b, userByte r' root ((PGROUNDDOWN srcva + 4096).toNat + k) ≠ 0) →
          ∀ k < (chunk srcva max).toNat + b, userByte r' root (srcva.toNat + k) ≠ 0 := by
        intro b hb hz k hk
        by_cases h1 : k < (chunk srcva max).toNat
        · rw [← hbyte k h1]
          exact hne k h1
        · have hk' := hz (k - (chunk srcva max).toNat) (by omega)
          rw [← hshift _ (by omega), Nat.add_sub_of_le (Nat.not_lt.mp h1)] at hk'
          exact hk'
      rw [hfirst, hrest]
      refine Returns.pure ⟨rfl, (chunk srcva max).toNat + m, by omega, userBytes_append hnext',
        readable_append hreads hreads' hnext', fun h => ?_, fun h => ⟨fun k hk => ?_, fun h' => ?_⟩⟩
      · obtain ⟨j, rfl, hz, hne'⟩ := htrue h
        exact ⟨(chunk srcva max).toNat + j, (Nat.add_assoc _ j 1).symm, (hshift j (by omega)).trans hz,
          hne j (by omega) hne'⟩
      · exact hne m le_rfl (hfalse h).1 k hk
      · obtain ⟨-, hnot⟩ := hfalse h
        rw [hnext (by omega), Nat.add_assoc] at hnot
        exact hnot (by omega)

/-! ## The copies together -/

theorem copyout_iff (src : Bytes) (dstva len : UInt64) (hu : UserTable r root) :
    Returns (copyout (root * PGSIZE) dstva src len) r fun ok r' =>
      UserTable r' root ∧ (ok = true ↔ ∀ k < len.toNat, Writable r root (dstva.toNat + k)) ∧
        (∀ x, (∀ k < len.toNat, Writable r root (dstva.toNat + k) → x ≠ phys r root (dstva.toNat + k)) →
          r'.ram x = r.ram x) ∧
        (ok = true → CopiedOut r root dstva.toNat src len.toNat r') := by
  refine (copyout_returns src dstva len hu).mono ?_
  rintro ok r' ⟨m, hm, hcopy, htrue, hfalse⟩
  refine ⟨hcopy.userTable hu, ⟨fun h k hk => ?_, fun h => ?_⟩, fun x hx => ?_, fun h => ?_⟩
  · rw [← htrue h] at hk
    exact hcopy.writable k hk
  · by_contra hc
    obtain ⟨hlt, hnot⟩ := hfalse (Bool.eq_false_iff.mpr hc)
    exact hnot (h m hlt)
  · exact hcopy.rest x fun k hk => hx k (by omega) (hcopy.writable k hk)
  · rw [← htrue h]
    exact hcopy

theorem copyin_iff (srcva len : UInt64) (hu : UserTable r root) :
    Returns (copyin (root * PGSIZE) srcva len) r fun s r' =>
      r' = r ∧ (s.2 = true ↔ ∀ k < len.toNat, Readable r root (srcva.toNat + k)) ∧
        (s.2 = true → s.1 = userBytes r root srcva.toNat len.toNat) := by
  refine (copyin_returns srcva len hu).mono ?_
  rintro s r' ⟨hr, m, hm, hbytes, hreads, htrue, hfalse⟩
  refine ⟨hr, ⟨fun h k hk => ?_, fun h => ?_⟩, fun h => ?_⟩
  · rw [← htrue h] at hk
    exact hreads k hk
  · by_contra hc
    obtain ⟨hlt, hnot⟩ := hfalse (Bool.eq_false_iff.mpr hc)
    exact hnot (h m hlt)
  · rw [hbytes, htrue h]

theorem copyinstr_iff (srcva max : UInt64) (hu : UserTable r root) :
    Returns (copyinstr (root * PGSIZE) srcva max) r fun s r' =>
      r' = r ∧ s.1.length ≤ max.toNat ∧
        (s.2 = true ↔ ∃ k < max.toNat, (∀ j ≤ k, Readable r root (srcva.toNat + j)) ∧
          userByte r root (srcva.toNat + k) = 0) ∧
        (s.2 = true → ∃ k, EndsAt (fun j => userByte r root (srcva.toNat + j)) k ∧
          s.1 = userBytes r root srcva.toNat (k + 1)) := by
  refine (copyinstr_returns srcva max hu).mono ?_
  rintro s r' ⟨hr, m, hm, hbytes, hreads, htrue, hfalse⟩
  refine ⟨hr, ?_, ⟨fun h => ?_, ?_⟩, fun h => ?_⟩
  · rw [hbytes, userBytes, List.length_map, List.length_range]
    exact hm
  · obtain ⟨k, rfl, hend⟩ := htrue h
    exact ⟨k, hm, fun j hj => hreads j (by omega), hend.1⟩
  · rintro ⟨k, hk, hread, hz⟩
    by_contra hc
    obtain ⟨hne, hstop⟩ := hfalse (Bool.eq_false_iff.mpr hc)
    have hmk : m ≤ k := by
      by_contra hlt
      exact hne k (Nat.not_le.mp hlt) hz
    exact hstop (by omega) (hread m hmk)
  · obtain ⟨k, rfl, hend⟩ := htrue h
    exact ⟨k, hend, hbytes⟩

/-- What copyin reads depends on the entries and the bytes of user pages only. -/
theorem copyin_congr (hu : UserTable r root) (hu' : UserTable r' root)
    (hpte : pteAt r'.ram root = pteAt r.ram root)
    (hbyte : ∀ a, Readable r root a → r'.ram (phys r root a) = r.ram (phys r root a))
    (srcva len : UInt64) :
    ∃ s, copyin (root * PGSIZE) srcva len r = .ok (s, r) ∧
      copyin (root * PGSIZE) srcva len r' = .ok (s, r') := by
  obtain ⟨⟨bs, ok⟩, t, hr, rfl, m, hm, hbytes, hreads, htrue, hfalse⟩ := copyin_returns srcva len hu
  obtain ⟨⟨bs', ok'⟩, t', hr', rfl, m', hm', hbytes', hreads', htrue', hfalse'⟩ :=
    copyin_returns srcva len hu'
  simp only at hbytes htrue hfalse hbytes' htrue' hfalse'
  have hread : ∀ a, Readable t' root a ↔ Readable t root a := by
    intro a
    rw [Readable, Readable, pteOf_congr hpte]
  -- both stop at the first page that is not readable
  have hle : m ≤ m' := by
    by_contra hlt
    have hok' : ok' = false := Bool.eq_false_iff.mpr fun h => by have := htrue' h; omega
    exact (hfalse' hok').2 ((hread _).mpr (hreads m' (by omega)))
  have hge : m' ≤ m := by
    by_contra hlt
    have hok : ok = false := Bool.eq_false_iff.mpr fun h => by have := htrue h; omega
    exact (hfalse hok).2 ((hread _).mp (hreads' m (by omega)))
  have hmm : m' = m := Nat.le_antisymm hge hle
  have hbs : bs' = bs := by
    rw [hbytes', hbytes, hmm]
    refine List.map_congr_left fun k hk => ?_
    rw [userByte, phys_congr hpte]
    exact hbyte _ (hreads k (List.mem_range.mp hk))
  have hok : ok' = ok := by
    cases ok with
    | true =>
      by_contra hc
      have hlt := (hfalse' (Bool.eq_false_iff.mpr hc)).1
      have heq := htrue rfl
      omega
    | false =>
      by_contra hc
      have hlt := (hfalse rfl).1
      have heq := htrue' (Bool.eq_true_of_not_eq_false hc)
      omega
  rw [hbs, hok] at hr'
  exact ⟨(bs, ok), hr, hr'⟩

/-- What a successful copyout has written, copyin reads. -/
theorem copyin_copyout {src : Bytes} {dstva len : UInt64} (hu : UserTable r' root)
    (h : CopiedOut r root dstva.toNat src len.toNat r') :
    copyin (root * PGSIZE) dstva len r' = .ok (((List.range len.toNat).map src, true), r') := by
  obtain ⟨⟨bs, ok⟩, r'', hr, rfl, hiff, hbytes⟩ := copyin_iff dstva len hu
  have hok : ok = true := hiff.mpr fun k hk => (h.writable_iff.mpr (h.writable k hk)).readable
  have hbs : bs = (List.range len.toNat).map src := by
    refine (hbytes hok).trans (List.map_congr_left fun k hk => ?_)
    exact h.bytes k (List.mem_range.mp hk)
  rw [hr, hok, hbs]

/-- copyout, copyin and copyinstr move exactly the bytes they are asked for, for every address and
every length, and fail exactly at a page that is not mapped for them. -/
theorem user_copies_exact (hu : UserTable r root) :
    (∀ dstva len src, Returns (copyout (root * PGSIZE) dstva src len) r fun ok r' =>
      (ok = true ↔ ∀ k < len.toNat, Writable r root (dstva.toNat + k)) ∧
        (∀ x, (∀ k < len.toNat, Writable r root (dstva.toNat + k) → x ≠ phys r root (dstva.toNat + k)) →
          r'.ram x = r.ram x) ∧
        (ok = true → (∀ k < len.toNat, r'.ram (phys r root (dstva.toNat + k)) = src k) ∧
          copyin (root * PGSIZE) dstva len r' = .ok (((List.range len.toNat).map src, true), r'))) ∧
    (∀ srcva len, Returns (copyin (root * PGSIZE) srcva len) r fun s r' =>
      r' = r ∧ (s.2 = true ↔ ∀ k < len.toNat, Readable r root (srcva.toNat + k)) ∧
        (s.2 = true → s.1 = userBytes r root srcva.toNat len.toNat)) ∧
    ∀ srcva max, Returns (copyinstr (root * PGSIZE) srcva max) r fun s r' =>
      r' = r ∧ s.1.length ≤ max.toNat ∧
        (s.2 = true ↔ ∃ k < max.toNat, (∀ j ≤ k, Readable r root (srcva.toNat + j)) ∧
          userByte r root (srcva.toNat + k) = 0) ∧
        (s.2 = true → ∃ k, EndsAt (fun j => userByte r root (srcva.toNat + j)) k ∧
          s.1 = userBytes r root srcva.toNat (k + 1)) := by
  refine ⟨fun dstva len src => (copyout_iff src dstva len hu).mono ?_,
    fun srcva len => copyin_iff srcva len hu, fun srcva max => copyinstr_iff srcva max hu⟩
  rintro ok r' ⟨hu', hiff, hrest, hcopy⟩
  refine ⟨hiff, hrest, fun h => ⟨fun k hk => ?_, copyin_copyout hu' (hcopy h)⟩⟩
  rw [← (hcopy h).phys]
  exact (hcopy h).bytes k hk

theorem bare_user (x : Page) : (tableAt bare.ram 524288).user x = 0 := by
  rw [bare_table]
  refine Finset.sum_eq_zero fun i _ => ?_
  show (if vpn i < lastUser then 0 else 0) = 0
  rw [ite_self]

/-- A table with one page that user mode may write, and three free pages. -/
theorem exists_userTable :
    ∃ r, UserTable r 524288 ∧ Writable r 524288 0 ∧ Memory.Spans (tableAt r.ram 524288) 1 ∧
      Moved bare 524288 r ∧ (∀ x, (tableAt r.ram 524288).user x = hit 524291 x) ∧
      Memory.Ample 3 r.mem := by
  have hperm : (PTE_R ||| PTE_W ||| PTE_U).toNat < 2 ^ 10 := by decide
  have hpa : 524291 * PGSIZE < 2 ^ 56 := by decide
  have hleaf : (tableAt bare.ram 524288).leaf (index 0) = none := by
    rw [leaf_tableAt, view, if_neg (not_not.mpr (bare_free _))]
  have hmap := mappages_refines (k := 0) (n := 1) (p := 524291) bare_apart hperm (by decide)
  obtain ⟨ok, r, hr, t, ⟨hm, htable, hok, l, hl, htrue, hpte⟩, hs, hcount, hcases, hample⟩ :=
    hmap.returns (Memory.mappages_returns _ (show 0 < MAXVA by decide) rfl hleaf bare.mem)
  obtain ⟨ht, hleft⟩ := hample 3 ⟨fun b hb => absurd hb List.not_mem_nil, by decide⟩
  have huser : ∀ x, t.1.user x = hit 524291 x := by
    rcases hcases with ⟨-, -, hu⟩ | ⟨hf, -⟩
    · intro x
      rw [hu x, bare_user, Nat.zero_add, Memory.ownLeaf_some (by decide)]
    · rw [ht] at hf
      cases hf
  rw [htrue (hok.trans ht)] at hpte
  refine ⟨r, ⟨fun x => ?_, fun i hi hv => ?_, ?_⟩, ?_, ⟨by decide, fun i hi => ?_, fun i hi _ => ?_⟩,
    hm, htable ▸ huser, hleft⟩
  · rw [htable, huser, hcount, hs.frame]
    by_cases hx : x = 524291
    · rw [hx, bare_table, PageTable.tables, Memory.Table.weigh_cleared]
      decide
    · have hap := bare_apart x
      rw [hit, if_neg (Ne.symm hx), Nat.add_zero]
      exact hap
  · have hout : ¬(0 ≤ vpn i ∧ vpn i < 0 + 1) := by
      have hlast : lastUser = 67108862 := by decide
      omega
    rw [hpte, mapped, if_neg hout] at hv
    exact absurd (bare_free i) hv
  · rw [hs.first]
    decide
  · have hentry : pteOf r 524288 0 =
        PA2PTE (524291 * PGSIZE) ||| (PTE_R ||| PTE_W ||| PTE_U) ||| PTE_V := by
      rw [pteOf_below r 524288 (by decide), hpte, mapped, if_pos (by decide)]
      rfl
    rw [Writable, hentry]
    exact ⟨(pack_bit (k := 0) hpa hperm (by decide)).mpr (by decide),
      (pack_bit (k := 4) hpa hperm (by decide)).mpr (by decide),
      (pack_bit (k := 2) hpa hperm (by decide)).mpr (by decide)⟩
  · have hzero : vpn i = 0 := by omega
    refine ⟨⟨524291, permOf (PTE_R ||| PTE_W ||| PTE_U)⟩, ?_, by decide⟩
    rw [leaf_tableAt, hpte, mapped, hzero]
    exact view_pack hpa hperm
  · rw [leaf_tableAt, hpte, mapped, if_neg (by omega), view, if_neg (not_not.mpr (bare_free i))]

/-- A byte copied out to the page of that table. -/
theorem user_copies_exact_byte :
    ∃ r, UserTable r 524288 ∧ Returns (copyout (524288 * PGSIZE) 0 (fun _ => 7) 1) r
      fun ok r' => ok = true ∧ r'.ram (phys r 524288 0) = 7 := by
  obtain ⟨r, hu, hw, -⟩ := exists_userTable
  have hall : ∀ k < (1 : UInt64).toNat, Writable r 524288 ((0 : UInt64).toNat + k) := by
    intro k hk
    obtain rfl := Nat.lt_one_iff.mp hk
    exact hw
  refine ⟨r, hu, ((user_copies_exact hu).1 0 1 fun _ => 7).mono ?_⟩
  rintro ok r' ⟨hiff, -, hbytes⟩
  have hok := hiff.mpr hall
  exact ⟨hok, (hbytes hok).1 0 Nat.one_pos⟩

end Xv6.Vm
