import Xv6.Vm.Copies
import Xv6.Vm.Space

/-! # sbrk

What sys_sbrk does to the size of a process and to the bytes of its memory.
-/

namespace Xv6.Vm

open Xv6.Framework
open Xv6.Memory (lastUser Within Spans pages)

variable {r r' : Machine} {root : Page} {i : Index} {a n sz : Nat}

theorem lastUser_lt (h : n ≤ lastUser) : n * PGSIZE < MAXVA := by
  simp only [lastUser, Memory.TRAPFRAME, Memory.TRAMPOLINE, MAXVA, PGSIZE] at h ⊢
  omega

theorem userByte_below (r : Machine) (root : Page) (ha : a < MAXVA) :
    userByte r root a = r.ram (PTE2PA (pteAt r.ram root (index a)) + a % PGSIZE) := by
  rw [userByte, phys, pteOf_below r root ha]

theorem vpn_lt (hn : n ≤ lastUser) (ha : a < n * PGSIZE) : a < MAXVA ∧ vpn (index a) < n := by
  have hmax := Nat.lt_trans ha (lastUser_lt hn)
  refine ⟨hmax, ?_⟩
  rw [Memory.vpn_index hmax, Nat.div_lt_iff_lt_mul (by decide)]
  exact ha

/-- Pages that are kept keep their bytes. -/
theorem Keeps.userByte (h : Keeps r root n r') (hn : n ≤ lastUser) (ha : a < n * PGSIZE) :
    userByte r' root a = userByte r root a := by
  obtain ⟨hmax, hv⟩ := vpn_lt hn ha
  rw [userByte_below r' root hmax, userByte_below r root hmax, h.pte _ hv]
  exact h.byte _ hv _ (Nat.mod_lt a (by decide))

/-- If the user part is as long as before, nothing is mapped differently. -/
theorem Resized.translation (h : Resized r root n r') (hsp : Spans (tableAt r.ram root) n)
    (hsp' : Spans (tableAt r'.ram root) n) (ha : a < MAXVA) :
    translation r' root a = translation r root a := by
  have hpte : pteAt r'.ram root (index a) = pteAt r.ram root (index a) ∨
      n ≤ vpn (index a) ∧ vpn (index a) < lastUser := by
    by_cases h1 : vpn (index a) < n
    · exact .inl (h.keeps.pte _ h1)
    by_cases h2 : lastUser ≤ vpn (index a)
    · exact .inl (h.keeps.kernel _ h2)
    · omega
  rw [translation_eq r' root ha, translation_eq r root ha]
  rcases hpte with he | ⟨h1, h2⟩
  · rw [he]
  · have hnone := hsp.free _ h1 h2
    have hnone' := hsp'.free _ h1 h2
    rw [leaf_tableAt] at hnone hnone'
    rw [if_neg (view_eq_none hnone'), if_neg (view_eq_none hnone)]

/-- What sbrk promises: the size changes by `n` and what stays mapped keeps its bytes, or -1 and
nothing changes. -/
def SbrkDone (r : Machine) (root : Page) (sz : Nat) (n : Int32) (s : Int × Nat) (r' : Machine) : Prop :=
  s.1 = sz ∧ (s.2 : Int) = sz + n.toInt ∧ Spans (tableAt r'.ram root) (pages s.2) ∧
      (∀ a < min sz s.2, userByte r' root a = userByte r root a) ∧
      (∀ a, PGROUNDUP sz ≤ a → a < s.2 → userByte r' root a = 0) ∨
    s.1 = -1 ∧ s.2 = sz ∧ (∀ a < MAXVA, translation r' root a = translation r root a) ∧
      ∀ a < PGROUNDUP sz, userByte r' root a = userByte r root a

theorem le_pages (sz : Nat) : sz ≤ pages sz * PGSIZE := by
  rw [Memory.pages_mul]
  simp only [PGROUNDUP, PGSIZE]
  omega

theorem spans_size (hw : Within r.mem (tableAt r.ram root))
    (hsp : Spans (tableAt r.ram root) (pages sz)) :
    sz < 2 ^ 32 := by
  have hle := hsp.le_frames hw
  have hphys : Memory.PHYSTOP / PGSIZE = 557056 := by decide
  have hsz := le_pages sz
  simp only [PGSIZE] at hsz
  omega

/-- Bytes below both sizes are on pages that are kept. -/
theorem sbrk_kept {sz' : Nat} (hres : Resized r root (min (pages sz) (pages sz')) r')
    (hsp : Spans (tableAt r.ram root) (pages sz)) (ha : a < min sz sz') :
    userByte r' root a = userByte r root a := by
  have hbelow := hsp.below
  refine hres.keeps.userByte (by omega) ?_
  have h1 := le_pages sz
  have h2 := le_pages sz'
  simp only [PGSIZE] at h1 h2 ⊢
  omega

theorem sbrk_grow {n : Int32} (hw : Within r.mem (tableAt r.ram root))
    (hsp : Spans (tableAt r.ram root) (pages sz)) (hn : 0 < n.toInt) :
    Returns (sysSbrk (root * PGSIZE) sz n) r fun s r' => SbrkDone r root sz n s r' := by
  rw [sysSbrk, growproc, if_pos hn]
  refine Returns.bind (P := fun e r' => SbrkDone r root sz n (e.elim (-1, sz) fun sz' => (sz, sz')) r')
    (Returns.bind (uvmalloc_returns hw hsp (sz + n.toInt.toNat) (by decide) (by decide)) ?_) ?_
  · rintro sz' r' (⟨rfl, hres, hsp'⟩ | ⟨h0, hmax, hres, hsp', hzero, -⟩)
    · refine Returns.pure (.inr ⟨rfl, rfl, fun a ha => hres.translation hsp hsp' ha, fun a ha => ?_⟩)
      rw [← Memory.pages_mul] at ha
      exact hres.keeps.userByte hsp.below ha
    · rw [if_neg h0]
      have hle : pages sz ≤ pages sz' := Memory.pages_mono (by omega)
      refine Returns.pure (.inl ⟨rfl, ?_, hsp', fun a ha => ?_, fun a h1 h2 => ?_⟩)
      · show (sz' : Int) = _
        omega
      · have hkept : Resized r root (min (pages sz) (pages sz')) r' := by
          rw [Nat.min_eq_left hle]
          exact hres
        exact sbrk_kept hkept hsp ha
      · have h2 : a < pages sz' * PGSIZE := Nat.lt_of_lt_of_le h2 (le_pages sz')
        obtain ⟨hamax, hv⟩ := vpn_lt hsp'.below h2
        rw [userByte_below r' root hamax]
        refine hzero _ ?_ hv _ (Nat.mod_lt a (by decide))
        rw [Memory.vpn_index hamax, Nat.le_div_iff_mul_le (by decide), Memory.pages_mul]
        exact h1
  · rintro (- | sz') r' hdone
    · exact Returns.pure hdone
    · exact Returns.pure hdone

theorem sbrk_shrink {n : Int32} (hw : Within r.mem (tableAt r.ram root))
    (hsp : Spans (tableAt r.ram root) (pages sz)) (hn : n.toInt < 0) (hle : 0 ≤ (sz : Int) + n.toInt) :
    Returns (sysSbrk (root * PGSIZE) sz n) r fun s r' => SbrkDone r root sz n s r' := by
  have hsize := spans_size hw hsp
  have hnew : (((sz : Int) + n.toInt) % 2 ^ 64).toNat = (sz + n.toInt).toNat := by omega
  rw [sysSbrk, growproc, if_neg (by omega), if_pos hn, hnew]
  refine Returns.bind (P := fun e r' => SbrkDone r root sz n (e.elim (-1, sz) fun sz' => (sz, sz')) r')
    (Returns.bind (uvmdealloc_returns hw hsp (sz + n.toInt).toNat) ?_) ?_
  · rintro sz' r' ⟨hmin, hres, hsp'⟩
    have hle : pages sz' ≤ pages sz := Memory.pages_mono (by omega)
    refine Returns.pure (.inl ⟨rfl, ?_, hsp', fun a ha => ?_, fun a h1 h2 => ?_⟩)
    · show (sz' : Int) = _
      omega
    · have hkept : Resized r root (min (pages sz) (pages sz')) r' := by
        rw [Nat.min_eq_right hle]
        exact hres
      exact sbrk_kept hkept hsp ha
    · have h2 : a < sz' := h2
      have hround := le_pages sz
      rw [Memory.pages_mul] at hround
      omega
  · rintro (- | sz') r' hdone
    · exact Returns.pure hdone
    · exact Returns.pure hdone

/-- Shrinking by more than the size changes nothing, and succeeds. -/
theorem sbrk_below (pagetable : Nat) (hsize : sz < 2 ^ 32) {n : Int32} (hn : (sz : Int) + n.toInt < 0)
    (r : Machine) : sysSbrk pagetable sz n r = .ok ((sz, sz), r) := by
  have hrange := n.le_toInt
  have hge : (((sz : Int) + n.toInt) % 2 ^ 64).toNat ≥ sz := by omega
  rw [sysSbrk, growproc, if_neg (by omega), if_pos (by omega), uvmdealloc, if_pos hge]
  rfl

/-- sbrk keeps its promise exactly when it is not asked to shrink the process below 0. -/
theorem sbrk_done_iff (hw : Within r.mem (tableAt r.ram root))
    (hsp : Spans (tableAt r.ram root) (pages sz)) (n : Int32) :
    Returns (sysSbrk (root * PGSIZE) sz n) r fun s r' =>
      SbrkDone r root sz n s r' ↔ 0 ≤ (sz : Int) + n.toInt := by
  by_cases hneg : (sz : Int) + n.toInt < 0
  · refine Returns.of_eq (sbrk_below _ (spans_size hw hsp) hneg r) ⟨fun hdone => ?_, fun h => ?_⟩
    · rcases hdone with ⟨-, hsz, -⟩ | ⟨hret, -⟩
      · omega
      · omega
    · omega
  have hle : 0 ≤ (sz : Int) + n.toInt := by omega
  rcases Int.lt_trichotomy n.toInt 0 with hn | hn | hn
  · exact (sbrk_shrink hw hsp hn hle).mono fun s r' h => iff_of_true h hle
  · have hdone : SbrkDone r root sz n (sz, sz) r := by
      refine .inl ⟨rfl, ?_, hsp, fun a _ => rfl, fun a h1 h2 => ?_⟩
      · rw [hn, Int.add_zero]
      · have hround := le_pages sz
        rw [Memory.pages_mul] at hround
        omega
    refine Returns.of_eq ?_ (iff_of_true hdone hle)
    rw [sysSbrk, growproc, if_neg (by omega), if_neg (by omega)]
    rfl
  · exact (sbrk_grow hw hsp hn).mono fun s r' h => iff_of_true h hle

/-- A process of one page that gives back two: sbrk returns the old size and keeps it. -/
theorem sbrk_two_pages_of_one :
    ∃ r, UserTable r 524288 ∧ Spans (tableAt r.ram 524288) (pages 4096) ∧
      sysSbrk (524288 * PGSIZE) 4096 (-8192) r = .ok ((4096, 4096), r) := by
  obtain ⟨r, hu, -, hsp, -⟩ := exists_userTable
  exact ⟨r, hu, hsp, sbrk_below _ (by decide) (by decide) r⟩

/-- A process of one page that grows by one. -/
theorem sbrk_done_one_page :
    ∃ r, UserTable r 524288 ∧ Returns (sysSbrk (524288 * PGSIZE) 4096 4096) r fun s r' =>
      SbrkDone r 524288 4096 4096 s r' := by
  obtain ⟨r, hu, -, hsp, -⟩ := exists_userTable
  have hsp : Spans (tableAt r.ram 524288) (pages 4096) := hsp
  refine ⟨r, hu, (sbrk_done_iff hu.within hsp 4096).mono fun s r' h => h.mpr ?_⟩
  decide

end Xv6.Vm
