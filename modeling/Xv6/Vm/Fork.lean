import Xv6.Vm.Sbrk

/-! # uvmcopy

The memory of a child: the pages of the parent, copied to pages of its own.
-/

namespace Xv6.Vm

open Xv6.Framework
open Xv6.Memory (Pte PageTable lastUser Within Spans pages Ample)

variable {r r' r'' : Machine} {o q p : Page} {i : Index} {k n c : Nat}

/-! ## Two tables -/

/-- The free pages and those of two tables are different frames. -/
def Twin (r : Machine) (o q : Page) : Prop :=
  ∀ x, r.mem.free x + (tableAt r.ram q).tables x + (tableAt r.ram q).user x +
    ((tableAt r.ram o).tables x + (tableAt r.ram o).user x) ≤ r.mem.frame x

namespace Twin

theorem within (h : Twin r o q) : Within r.mem (tableAt r.ram q) :=
  fun x => (Nat.le_add_right _ _).trans (h x)

theorem symm (h : Twin r o q) : Twin r q o := by
  intro x
  have hx := h x
  omega

/-- What one table owns is not the other's. -/
theorem outside (h : Twin r o q) {x : Page} (hx : Owned r q x) :
    (tableAt r.ram o).tables x = 0 ∧ (tableAt r.ram o).user x = 0 := by
  have hle := h x
  have hframe := r.mem.frame_le x
  rw [Owned] at hx
  omega

/-- A change of what the second table owns does not reach the first. -/
theorem old (h : Twin r o q) (hoff : Off (Owned r q) r.ram r'.ram) :
    tableAt r'.ram o = tableAt r.ram o ∧ pteAt r'.ram o = pteAt r.ram o :=
  pteAt_off (within_apart h.symm.within).distinct hoff fun _ hx => (h.outside hx).1

theorem old_byte (h : Twin r o q) (hoff : Off (Owned r q) r.ram r'.ram) {pte : Pte}
    (hi : vpn i < lastUser) (hl : (tableAt r.ram o).leaf i = some pte) {j : Nat} (hj : j < PGSIZE) :
    r'.ram (pte.page * PGSIZE + j) = r.ram (pte.page * PGSIZE + j) := by
  refine hoff pte.page (fun hx => ?_) j hj
  have hone := (user_page h.symm.within hi hl).2.2
  rw [(h.outside hx).2] at hone
  cases hone

theorem resized (h : Twin r o q) (hr : Resized r q n r') : Twin r' o q := by
  intro x
  rw [hr.edited.count, hr.edited.same.frame, (h.old hr.off).1]
  exact h x

end Twin

/-! ## Flags -/

theorem flags_and (v : UInt64) {c : UInt64} (hc : 0x3FF &&& c = c) : PTE_FLAGS v &&& c = v &&& c := by
  rw [PTE_FLAGS, UInt64.and_assoc, hc]

theorem PTE_FLAGS_lt (v : UInt64) : (PTE_FLAGS v).toNat < 2 ^ 10 := by
  have hmask := Words.toNat_and_mask (k := 10) v (by decide)
  refine Nat.lt_of_le_of_lt (le_of_eq hmask) (Nat.mod_lt _ (by decide))

/-- PTE_V is among the flags of a valid entry. -/
theorem flags_valid {v : UInt64} (h : v &&& PTE_V ≠ 0) : PTE_FLAGS v ||| PTE_V = PTE_FLAGS v := by
  have hbit : (PTE_FLAGS v).toNat.testBit 0 = true := by
    rw [← flags_and v rfl] at h
    exact (Words.and_bit (PTE_FLAGS v) (by decide)).mp h
  apply UInt64.toNat.inj
  rw [UInt64.toNat_or]
  refine Nat.eq_of_testBit_eq fun b => ?_
  rw [Nat.testBit_or]
  by_cases hb : b = 0
  · rw [hb, hbit, Bool.true_or]
  · have hone : PTE_V.toNat.testBit b = false :=
      Bool.eq_false_iff.mpr fun h => hb (Nat.testBit_one_eq_true_iff_self_eq_zero.mp h)
    rw [hone, Bool.or_false]

/-! ## The loop -/

/-- The pages from `k` to `n` of the new table are copies of those of the old one. -/
def Duplicated (r : Machine) (o q : Page) (k n : Nat) (r' : Machine) : Prop :=
  ∀ i, k ≤ vpn i → vpn i < n →
    PTE_FLAGS (pteAt r'.ram q i) = PTE_FLAGS (pteAt r.ram o i) ∧
      ∀ j < PGSIZE, r'.ram (PTE2PA (pteAt r'.ram q i) + j) = r.ram (PTE2PA (pteAt r.ram o i) + j)

/-- `n` pages from `k` on are copied, or none are left. Each takes an allocation for itself and at most
two for tables. -/
structure Copied (r : Machine) (o q : Page) (k n : Nat) (ok : Bool) (r' : Machine) : Prop where
  done : ok = true → Resized r q k r' ∧ Spans (tableAt r'.ram q) (k + n) ∧
    Duplicated r o q k (k + n) r'
  undone : ok = false → Resized r q 0 r' ∧ Spans (tableAt r'.ram q) 0
  ample : Ample (3 * n) r.mem → ok = true

theorem copyLoop_returns (n : Nat) :
    ∀ (k : Nat) (r : Machine), k + n ≤ c → Twin r o q → Spans (tableAt r.ram o) c →
      Spans (tableAt r.ram q) k →
      Returns (copyLoop (o * PGSIZE) (q * PGSIZE) (k * PGSIZE) n) r (Copied r o q k n) := by
  induction n with
  | zero =>
    intro k r _ _ _ hsp
    exact Returns.pure ⟨fun _ => ⟨.refl r q k, hsp, fun i h1 h2 => by omega⟩, nofun, fun _ => rfl⟩
  | succ n ih =>
    intro k r hk htwin hold hsp
    have hw := htwin.within
    -- giving the pages of this call back
    have hback : ¬ Ample (3 * n + 3) r.mem → ∀ r', Resized r q k r' → Spans (tableAt r'.ram q) k →
        Returns (do uvmunmap (q * PGSIZE) 0 (k * PGSIZE / PGSIZE) true
                    return false) r' (Copied r o q k (n + 1)) := by
      intro hno r' hres hsp'
      have hshrink := shrink_returns (hw.edited hres.edited) hsp' (Nat.zero_le k)
      rw [Nat.mul_div_cancel k (by decide)]
      refine Returns.bind hshrink ?_
      rintro - r'' ⟨hres', hsp''⟩
      exact Returns.pure ⟨nofun, fun _ => ⟨(hres.mono (Nat.zero_le k)).trans hres', hsp''⟩,
        fun ha => absurd ha hno⟩
    have hbelow := hold.below
    have hmax : (k + 1) * PGSIZE ≤ MAXVA := (lastUser_lt (show k + 1 ≤ lastUser by omega)).le
    have hi := vpn_page hmax
    obtain ⟨pte, hleaf, hr⟩ := hold.mapped (index (k * PGSIZE)) (by omega)
    obtain ⟨hv, hpa, hperm⟩ := leaf_pte hleaf
    obtain ⟨addr, hslot, hwalk⟩ := walk_slot hmax hv
    have hload : load64 addr r = .ok (pteAt r.ram o (index (k * PGSIZE)), r) := by
      rw [pteAt_slot hslot]
      rfl
    refine Returns.bind_ok hwalk (Returns.bind_ok hload ?_)
    rw [if_neg hv]
    refine Returns.bind (kalloc_cases r q k) ?_
    rintro a r₁ ⟨⟨rfl, hres, hram⟩ | ⟨p, rfl, hfill⟩, hample⟩
    · refine hback (fun ha => (hample _ ha).1 rfl) r₁ hres ?_
      rw [hram]
      exact hsp
    refine Returns.bind_ok (show (get : Kernel Machine) r₁ = .ok (r₁, r₁) from rfl) ?_
    refine Returns.bind_ok (memmove_eq _ _ _ _) ?_
    have hread : PTE_FLAGS (pteAt r.ram o (index (k * PGSIZE))) &&& PTE_R ≠ 0 := by
      rw [flags_and _ rfl]
      rw [hperm] at hr
      exact of_decide_eq_true hr
    refine Returns.bind (extend_returns hw hsp (hfill.fill _) (PTE_FLAGS_lt _) hread) ?_
    rintro ok r₂ ⟨⟨rfl, hres, hsp₂, hentry, hbytes⟩ | ⟨rfl, hheld⟩, hample'⟩
    · rw [← Nat.succ_mul]
      obtain ⟨htable, hpte⟩ := htwin.old hres.off
      refine (ih (k + 1) r₂ (by omega) (htwin.resized hres) (by rw [htable]; exact hold) hsp₂).mono ?_
      rintro ok r₃ ⟨htrue, hfalse, hall⟩
      refine ⟨fun h => ?_, fun h => ?_, fun h => hall (hample' _ (hample _ h).2).2⟩
      · obtain ⟨hres', hsp₃, hdup⟩ := htrue h
        rw [show k + (n + 1) = k + 1 + n by omega]
        refine ⟨hres.trans (hres'.mono k.le_succ), hsp₃, fun j h1 h2 => ?_⟩
        by_cases hj : vpn j = k
        · obtain rfl : j = index (k * PGSIZE) := Memory.vpn_injective (hj.trans hi.symm)
          have hlt := hfill.lt hw
          have hflags := PTE_FLAGS_lt (pteAt r.ram o (index (k * PGSIZE)))
          have hpage : PTE2PA (pteAt r₂.ram q (index (k * PGSIZE))) = p * PGSIZE := by
            rw [hentry _ hj, PTE2PA_pack hlt hflags, Nat.mul_div_cancel p (by decide)]
          have hne : pte.page ≠ p := by
            intro he
            have hone := (user_page htwin.symm.within (by omega) hleaf).2.2
            rw [he, (htwin.outside hfill.owned).2] at hone
            cases hone
          constructor
          · rw [hres'.keeps.pte _ (by omega), hentry _ hj, flags_pack hlt hflags, flags_valid hv]
          · intro l hl
            have hkept := hres'.keeps.byte (index (k * PGSIZE)) (by omega) l hl
            rw [hpage] at hkept
            rw [hres'.keeps.pte _ (by omega), hpage, hkept, hbytes l hl, move_inside hl, hpa]
            exact hfill.off pte.page hne l hl
        · obtain ⟨hflags, hsame⟩ := hdup j (by omega) h2
          obtain ⟨pte', hleaf', -⟩ := hold.mapped j (by omega)
          rw [hpte] at hflags hsame
          refine ⟨hflags, fun l hl => (hsame l hl).trans ?_⟩
          rw [(leaf_pte hleaf').2.1]
          exact htwin.old_byte hres.off (by omega) hleaf' hl
      · obtain ⟨hres', hsp₃⟩ := hfalse h
        exact ⟨(hres.mono (Nat.zero_le k)).trans hres', hsp₃⟩
    · refine Returns.bind (hheld.kfree_returns hw hsp) ?_
      rintro - r₃ ⟨hres, hsp₃⟩
      exact hback (fun ha => nomatch (hample' _ (hample _ ha).2).1) r₃ hres hsp₃

/-! ## Separate memories -/

/-- A copy to user memory through one table is not seen through the other. -/
def Isolated (r : Machine) (x y : Page) : Prop :=
  ∀ dstva src len ok r', copyout (x * PGSIZE) dstva src len r = .ok (ok, r') →
    ∀ srcva len', ∃ s, copyin (y * PGSIZE) srcva len' r = .ok (s, r) ∧
      copyin (y * PGSIZE) srcva len' r' = .ok (s, r')

theorem isolated (h : Twin r o q) (ho : UserTable r o) (hq : UserTable r q) : Isolated r q o := by
  intro dstva src len ok r' hr srcva len'
  obtain ⟨ok', t, hr', m, -, hcopy, -⟩ := copyout_returns src dstva len hq
  rw [hr] at hr'
  obtain ⟨rfl, rfl⟩ := Prod.mk.inj (Except.ok.inj hr')
  -- only user pages of the one table are written
  have hoff : Off (Owned r q) r.ram r'.ram := by
    intro x hx j hj
    refine hcopy.rest _ fun l hl he => hx ?_
    obtain ⟨pte, hleaf, hi, hpa⟩ := hq.leaf (hcopy.writable l hl).readable
    rw [phys, hpa] at he
    have hpage : @Eq Nat x pte.page := by
      have hlt := Nat.mod_lt (dstva.toNat + l) (show 0 < PGSIZE by decide)
      simp only [PGSIZE] at he hj hlt
      omega
    have hone := (user_page hq.within hi hleaf).2.2
    rw [← hpage] at hone
    rw [Owned]
    omega
  obtain ⟨htable, hpte⟩ := h.old hoff
  have ho' : UserTable r' o := by
    refine ⟨?_, ?_, ?_⟩
    · rw [hcopy.mem, htable]
      exact ho.within
    · rw [hpte]
      exact ho.kernel
    · rw [hcopy.mem]
      exact ho.null
  refine copyin_congr ho ho' hpte (fun a ha => ?_) srcva len'
  obtain ⟨pte, hleaf, hi, hpa⟩ := ho.leaf ha
  rw [phys, hpa]
  exact h.old_byte hoff hi hleaf (Nat.mod_lt a (by decide))

/-! ## The whole copy -/

theorem translation_leaf {root : Page} {a : Nat} {pte : Pte} (ha : a < MAXVA)
    (h : (tableAt r.ram root).leaf (index a) = some pte) :
    translation r root a = some (pte.page * PGSIZE, PTE_FLAGS (pteAt r.ram root (index a))) := by
  obtain ⟨hv, hpa, -⟩ := leaf_pte h
  rw [translation_eq r root ha, if_pos hv, hpa]

theorem translation_no_leaf {root : Page} {a : Nat} (ha : a < MAXVA)
    (h : (tableAt r.ram root).leaf (index a) = none) : translation r root a = none := by
  rw [leaf_tableAt] at h
  rw [translation_eq r root ha, if_neg (view_eq_none h)]

theorem userTable_resized {root : Page} (hu : UserTable r root) (h : Resized r root n r') :
    UserTable r' root := by
  refine ⟨hu.within.edited h.edited, fun i hi => ?_, ?_⟩
  · rw [h.keeps.kernel i hi]
    exact hu.kernel i hi
  · rw [h.edited.same.first]
    exact hu.null

theorem userTable_old (htwin : Twin r o q) (ho : UserTable r o) (h : Resized r q n r') :
    UserTable r' o := by
  obtain ⟨-, hpte⟩ := htwin.old h.off
  refine ⟨(htwin.resized h).symm.within, fun i hi => ?_, ?_⟩
  · rw [hpte]
    exact ho.kernel i hi
  · rw [h.edited.same.first]
    exact ho.null

/-- The parent's memory while the child's table changes. -/
theorem parent_unchanged {a : Nat} (htwin : Twin r o q) (hold : Spans (tableAt r.ram o) c)
    (h : Resized r q n r') (ha : a < MAXVA) :
    translation r' o a = translation r o a ∧
      (a < c * PGSIZE → userByte r' o a = userByte r o a) := by
  obtain ⟨-, hpte⟩ := htwin.old h.off
  constructor
  · rw [translation_eq r' o ha, translation_eq r o ha, hpte]
  · intro hc
    have hbelow := hold.below
    obtain ⟨-, hv⟩ := vpn_lt hbelow hc
    obtain ⟨pte, hleaf, -⟩ := hold.mapped _ hv
    rw [userByte_below r' o ha, userByte_below r o ha, hpte, (leaf_pte hleaf).2.1]
    exact htwin.old_byte h.off (by omega) hleaf (Nat.mod_lt a (by decide))

theorem child_page {a : Nat} (htwin : Twin r o q) (hold : Spans (tableAt r.ram o) c) (hn : n ≤ c)
    (h : Resized r q 0 r') (hsp : Spans (tableAt r'.ram q) n) (hdup : Duplicated r o q 0 n r')
    (ha : a < n * PGSIZE) :
    ∃ pa pa' flags, translation r o a = some (pa, flags) ∧ translation r' q a = some (pa', flags) ∧
      userByte r' q a = userByte r o a ∧
      (∀ b < c * PGSIZE, ∀ t, translation r' o b = some t → t.1 ≠ pa') ∧
      ∀ b < n * PGSIZE, ∀ t, translation r' q b = some t → t.1 = pa' → b / PGSIZE = a / PGSIZE := by
  have hbelow := hold.below
  have htwin' := htwin.resized h
  obtain ⟨htable, -⟩ := htwin.old h.off
  obtain ⟨hmax, hv⟩ := vpn_lt (show n ≤ lastUser by omega) ha
  obtain ⟨pte, hleaf, -⟩ := hold.mapped (index a) (by omega)
  obtain ⟨pte', hleaf', -⟩ := hsp.mapped (index a) hv
  obtain ⟨hflags, hbytes⟩ := hdup (index a) (Nat.zero_le _) hv
  have hcancel : ∀ x y : Nat, x * PGSIZE = y * PGSIZE → x = y :=
    fun x y he => Nat.eq_of_mul_eq_mul_right (by decide) he
  refine ⟨pte.page * PGSIZE, pte'.page * PGSIZE, PTE_FLAGS (pteAt r.ram o (index a)),
    translation_leaf hmax hleaf, ?_, ?_, fun b hb t ht he => ?_, fun b hb t ht he => ?_⟩
  · rw [translation_leaf hmax hleaf', hflags]
  · rw [userByte_below r' q hmax, userByte_below r o hmax]
    exact hbytes _ (Nat.mod_lt a (by decide))
  · obtain ⟨hbmax, hbv⟩ := vpn_lt hbelow hb
    obtain ⟨pte₂, hleaf₂, -⟩ := hold.mapped (index b) hbv
    rw [← htable] at hleaf₂
    rw [translation_leaf hbmax hleaf₂] at ht
    cases ht
    have hone := (user_page htwin'.symm.within (by omega) hleaf₂).2.2
    have hown : Owned r' q pte₂.page := by
      have hone' := (user_page htwin'.within (by omega) hleaf').2.2
      rw [← hcancel _ _ he] at hone'
      rw [Owned]
      omega
    rw [(htwin'.outside hown).2] at hone
    cases hone
  · obtain ⟨hbmax, hbv⟩ := vpn_lt (show n ≤ lastUser by omega) hb
    obtain ⟨pte₂, hleaf₂, -⟩ := hsp.mapped (index b) hbv
    rw [translation_leaf hbmax hleaf₂] at ht
    cases ht
    have hij := user_page_inj htwin'.within (by omega) (by omega) hleaf₂ hleaf' (hcancel _ _ he)
    rw [← Memory.vpn_index hbmax, ← Memory.vpn_index hmax, hij]

/-- fork's copy of memory: on success the child has the parent's pages with the same flags and bytes
on pages of its own, on failure none, and the parent's memory is as it was. It fails only where an
allocation does. -/
theorem uvmcopy_faithful {sz : Nat} (htwin : Twin r o q) (ho : UserTable r o) (hq : UserTable r q)
    (hold : Spans (tableAt r.ram o) c) (hsz : pages sz ≤ c) (hnew : Spans (tableAt r.ram q) 0) :
    Returns (uvmcopy (o * PGSIZE) (q * PGSIZE) sz) r fun ok r' =>
      (ok = true →
        (∀ a < PGROUNDUP sz, ∃ pa pa' flags, translation r o a = some (pa, flags) ∧
          translation r' q a = some (pa', flags) ∧ userByte r' q a = userByte r o a ∧
          (∀ b < c * PGSIZE, ∀ t, translation r' o b = some t → t.1 ≠ pa') ∧
          ∀ b < PGROUNDUP sz, ∀ t, translation r' q b = some t → t.1 = pa' →
            b / PGSIZE = a / PGSIZE) ∧
        (∀ a, PGROUNDUP sz ≤ a → a < MAXVA → translation r' q a = translation r q a) ∧
        Isolated r' q o ∧ Isolated r' o q) ∧
      (ok = false → ∀ a < sz, translation r' q a = none) ∧
      (Ample (3 * pages sz) r.mem → ok = true) ∧
      ∀ a < MAXVA, translation r' o a = translation r o a ∧
        (a < c * PGSIZE → userByte r' o a = userByte r o a) := by
  have hloop := copyLoop_returns (pages sz) 0 r (by omega) htwin hold hnew
  rw [uvmcopy, ← Memory.pages_eq, ← Memory.pages_mul]
  refine hloop.mono ?_
  rintro ok r' ⟨htrue, hfalse, hample⟩
  have hbelow := hold.below
  have hres : Resized r q 0 r' := by
    cases ok with
    | true => exact (htrue rfl).1
    | false => exact (hfalse rfl).1
  refine ⟨fun h => ?_, fun h a ha => ?_, hample,
    fun a ha => parent_unchanged htwin hold hres ha⟩
  · obtain ⟨-, hsp, hdup⟩ := htrue h
    rw [Nat.zero_add] at hsp hdup
    have hq' := userTable_resized hq hres
    have ho' := userTable_old htwin ho hres
    refine ⟨fun a ha => child_page htwin hold hsz hres hsp hdup ha, fun a h1 h2 => ?_,
      isolated (htwin.resized hres) ho' hq', isolated (htwin.resized hres).symm hq' ho'⟩
    have hv : pages sz ≤ vpn (index a) := by
      rw [Memory.vpn_index h2, Nat.le_div_iff_mul_le (by decide)]
      exact h1
    by_cases hlast : vpn (index a) < lastUser
    · rw [translation_no_leaf h2 (hsp.free _ hv hlast),
        translation_no_leaf h2 (hnew.free _ (Nat.zero_le _) hlast)]
    · rw [translation_eq r' q h2, translation_eq r q h2, hres.keeps.kernel _ (Nat.not_lt.mp hlast)]
  · have ha : a < pages sz * PGSIZE := Nat.lt_of_lt_of_le ha (le_pages sz)
    obtain ⟨hmax, hv⟩ := vpn_lt (show pages sz ≤ lastUser by omega) ha
    exact translation_no_leaf hmax ((hfalse h).2.free _ (Nat.zero_le _) (by omega))

/-- A process of one page beside an empty table, with three free pages. -/
theorem exists_twin :
    ∃ r, Twin r 524288 524292 ∧ UserTable r 524288 ∧ UserTable r 524292 ∧
      Spans (tableAt r.ram 524288) 1 ∧ Spans (tableAt r.ram 524292) 0 ∧ Ample 3 r.mem := by
  obtain ⟨r, hu, -, hsp, hm, huser, hample⟩ := exists_userTable
  have hframe : ∀ x : Nat, 524288 ≤ x → x < 557056 → r.mem.frame x = 1 := by
    intro x h1 h2
    rw [hm.same.frame]
    exact if_pos ⟨h1, h2⟩
  have hcount : ∀ x : Nat, r.mem.free x + (tableAt r.ram 524288).tables x =
      bare.mem.free x + hit 524288 x := by
    intro x
    rw [hm.count, bare_table, PageTable.tables, Memory.Table.weigh_cleared]
  have hempty : tableAt r.ram 524292 = .cleared 524292 := by
    refine clears_upper fun j hj => ?_
    refine (hm.off 524292 (fun hs => hs ?_) j hj).trans rfl
    rw [bare_table, PageTable.tables, Memory.Table.weigh_cleared]
    rfl
  have hnone : ∀ i, (tableAt r.ram 524292).leaf i = none := by
    intro i
    rw [hempty]
    rfl
  have hzero : ∀ i, pteAt r.ram 524292 i = 0 := by
    intro i
    rw [pteAt, hempty]
    rfl
  have htwin : Twin r 524288 524292 := by
    intro x
    have hnouser : (tableAt r.ram 524292).user x = 0 := by
      refine Finset.sum_eq_zero fun i _ => ?_
      rw [hnone, Memory.ownLeaf, Option.elim_none, ite_self]
    have hx := hcount x
    rw [hnouser, huser, hempty, PageTable.tables, Memory.Table.weigh_cleared]
    have hap := bare_apart x
    rw [bare_table, PageTable.tables, Memory.Table.weigh_cleared] at hap
    by_cases h1 : x = 524291 ∨ x = 524292
    · have hnew : bare.mem.free x + hit 524288 x = 0 ∧ hit 524292 x + hit 524291 x = 1 := by
        rcases h1 with rfl | rfl <;> decide
      have hone : r.mem.frame x = 1 := by
        rcases h1 with rfl | rfl <;> exact hframe _ (by decide) (by decide)
      omega
    · push Not at h1
      have h2 : hit 524292 x = 0 := if_neg (Ne.symm h1.2)
      have h3 : hit 524291 x = 0 := if_neg (Ne.symm h1.1)
      rw [hm.same.frame]
      omega
  refine ⟨r, htwin, hu, ⟨htwin.within, fun i _ hv => ?_, hu.null⟩, hsp, ?_, hample⟩
  · rw [hzero] at hv
    exact absurd UInt64.zero_and hv
  · exact ⟨Nat.zero_le _, fun i hi => absurd hi (Nat.not_lt_zero _), fun i _ _ => hnone i⟩

/-- The copy of that process. -/
theorem uvmcopy_faithful_one_page :
    ∃ r, Twin r 524288 524292 ∧ Returns (uvmcopy (524288 * PGSIZE) (524292 * PGSIZE) 4096) r
      fun ok r' => ok = true ∧ userByte r' 524292 7 = userByte r 524288 7 := by
  obtain ⟨r, htwin, ho, hq, hold, hnew, hample⟩ := exists_twin
  have hsz : pages 4096 ≤ 1 := le_rfl
  refine ⟨r, htwin, (uvmcopy_faithful htwin ho hq hold hsz hnew).mono ?_⟩
  rintro ok r' ⟨htrue, -, hok, -⟩
  have h := hok hample
  obtain ⟨-, -, -, -, -, hbyte, -⟩ := (htrue h).1 7 (by decide)
  exact ⟨h, hbyte⟩

end Xv6.Vm
