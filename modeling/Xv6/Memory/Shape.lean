import Xv6.Memory.Ownership

open Xv6.Framework

namespace Xv6.Memory

variable {first taken : Nat} {trampoline : Page} {tr : List (Event World Label)} {w : World}

/-- The leaves of a table are exactly the pages of `[0, PGROUNDUP(sz))` and the kernel's two. -/
def Shaped (pt : PageTable) (sz : Nat) : Prop :=
  ∀ i, (pt.leaf i).isSome ↔
    vpn i * PGSIZE < PGROUNDUP sz ∨ vpn i * PGSIZE = TRAPFRAME ∨ vpn i * PGSIZE = TRAMPOLINE

theorem le_PGROUNDUP (sz : Nat) : sz ≤ PGROUNDUP sz := by
  simp only [PGROUNDUP, PGSIZE]
  omega

theorem Built.size {s : Slot} {tramp tf : Page} {pt : PageTable} (h : Built tramp s tf pt) :
    s.sz ≤ TRAPFRAME := by
  have h1 := Nat.mul_le_mul_right PGSIZE h.spans.below
  have h2 : lastUser * PGSIZE = TRAPFRAME := by decide
  rw [pages_mul] at h1
  exact (le_PGROUNDUP s.sz).trans h1

theorem Built.shaped {s : Slot} {tramp tf : Page} {pt : PageTable} (h : Built tramp s tf pt) :
    Shaped pt s.sz := by
  have hpos : 0 < PGSIZE := by decide
  have htf : TRAPFRAME = lastUser * PGSIZE := by decide
  have htr : TRAMPOLINE = (lastUser + 1) * PGSIZE := by decide
  intro i
  rw [← pages_mul, htf, htr, Nat.mul_lt_mul_right hpos, Nat.mul_left_inj hpos.ne',
    Nat.mul_left_inj hpos.ne']
  constructor
  · intro hs
    by_contra hc
    by_cases hu : vpn i < lastUser
    · rw [h.spans.free i (by omega) hu] at hs
      cases hs
    · have h5 : MAXVA / PGSIZE = lastUser + 2 := by decide
      rw [h.kernel.above i (by omega)] at hs
      cases hs
  · rintro (hi | hi | hi)
    · obtain ⟨pte, hl, -⟩ := h.spans.mapped i hi
      rw [hl]
      rfl
    · rw [vpn_injective (hi.trans vpn_TRAPFRAME.symm), h.kernel.trapframe]
      rfl
    · rw [vpn_injective (hi.trans vpn_TRAMPOLINE.symm), h.kernel.trampoline]
      rfl

/-- In every run whose userinit finds the memory it needs, each process has an address space of
the shape that its size gives, and no call panics. -/
theorem address_spaces_shaped (hp : Path next (boot first trampoline taken) tr w)
    (hb : ∀ ev ∈ tr, Booting ev.pre ev.label) :
    (∀ p, (w.proc p).state ≠ .unused → ∃ pt, (w.proc p).pagetable = some pt ∧
      Shaped pt (w.proc p).sz ∧ (w.proc p).sz ≤ TRAPFRAME) ∧ w.panicked = none := by
  have hinv := inv_path hp hb
  refine ⟨fun p hst => ?_, hinv.running⟩
  obtain ⟨tf, pt, hl⟩ := hinv.good.live hst
  exact ⟨pt, hl.pagetable, hl.shaped, hl.size⟩

/-- The first process forks; the child grows, shrinks to a size within a page, and loads a
program. -/
def growsAndLoads : List Label :=
  [⟨.userinit, []⟩, ⟨.fork 0, []⟩, ⟨.sbrk 1 5000, []⟩, ⟨.sbrk 1 (-3000), []⟩,
    ⟨.sbrk 1 20000, [false, false, true]⟩, ⟨.execArg 1 true true, []⟩, ⟨.execBegin 1 true, []⟩,
    ⟨.execSegment 1 (some ⟨true, 0, 100, 5000, true, false⟩) 1, []⟩]

set_option maxRecDepth 8192 in
theorem address_spaces_shaped_growsAndLoads :
    (∀ ev ∈ events next (boot 556996 5 3) growsAndLoads, Booting ev.pre ev.label) ∧
      ((final next (boot 556996 5 3) growsAndLoads).proc 1).state = .live ∧
      ((final next (boot 556996 5 3) growsAndLoads).proc 1).sz = 6096 ∧
      ∃ pt, ((final next (boot 556996 5 3) growsAndLoads).proc 1).pagetable = some pt ∧
        Shaped pt 6096 := by
  have hp : Path next (boot 556996 5 3) _ (final next (boot 556996 5 3) growsAndLoads) :=
    path_final (by decide +kernel)
  have hb : ∀ ev ∈ events next (boot 556996 5 3) growsAndLoads, Booting ev.pre ev.label := by
    intro ev hev
    rcases mem_events_cons hev with ⟨hpre, hl⟩ | ⟨t, ht⟩
    · rw [hpre, hl]
      exact fun _ => ⟨by decide, by decide +kernel⟩
    · have hl := label_mem_of_events ht
      simp only [List.mem_cons, List.not_mem_nil, or_false] at hl
      rcases hl with hl | hl | hl | hl | hl | hl | hl <;> simp [Booting, hl]
  have hst : ((final next (boot 556996 5 3) growsAndLoads).proc 1).state = .live := by
    decide +kernel
  have hsz : ((final next (boot 556996 5 3) growsAndLoads).proc 1).sz = 6096 := by
    decide +kernel
  obtain ⟨pt, hpt, hs, -⟩ := (address_spaces_shaped hp hb).1 1 (by rw [hst]; simp)
  rw [hsz] at hs
  exact ⟨hb, hst, hsz, pt, hpt, hs⟩

/-- userinit with an allocation that fails inside mappages. -/
def starvedBoot : List Label := [⟨.userinit, [false, false, false, false, false, true]⟩]

set_option maxRecDepth 8192 in
/-- uvmfirst does not look at what mappages returns: the first process has a size of one page and
no page, and its first fork panics. -/
theorem starvedBoot_unmapped :
    Path next (boot 556996 5 3) (events next (boot 556996 5 3) starvedBoot)
        (final next (boot 556996 5 3) starvedBoot) ∧
      ((final next (boot 556996 5 3) starvedBoot).proc 0).state = .live ∧
      ((final next (boot 556996 5 3) starvedBoot).proc 0).sz = PGSIZE ∧
      ((final next (boot 556996 5 3) starvedBoot).proc 0).pagetable.map (fun pt => pt.leaf (index 0)) =
        some none ∧
      (next (final next (boot 556996 5 3) starvedBoot) ⟨.fork 0, []⟩).map World.panicked =
        some (some .uvmcopyPteShouldExist) :=
  ⟨path_final (by decide +kernel), by decide +kernel, by decide +kernel, by decide +kernel,
    by decide +kernel⟩

end Xv6.Memory
