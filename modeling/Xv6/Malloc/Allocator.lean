import Xv6.Malloc.Allocate

namespace Xv6.Malloc

open Xv6.Framework

namespace Heap

theorem units_toNat (nbytes : UInt32) :
    (units nbytes).toNat = (nbytes.toNat + 15) / 16 + 1 := by
  have := nbytes.toNat_lt
  rw [units, UInt32.toNat_ofNat']
  unfold HEADER
  omega

theorem units_le_coreUnits (n : UInt32) : n.toNat ≤ (coreUnits n).toNat := by
  unfold coreUnits
  split_ifs with h
  · exact Nat.le_of_lt (UInt32.lt_iff_toNat_lt.mp h)
  · exact Nat.le_refl _

theorem units_pos (nbytes : UInt32) : 0 < (units nbytes).toNat := by
  rw [units_toNat]
  omega

end Heap

def liveBlock (x : Nat × UInt32) : Block := ⟨x.1 - HEADER, (Heap.units x.2).toNat⟩

theorem liveBlock_pos (x : Nat × UInt32) : 0 < (liveBlock x).units := Heap.units_pos x.2

/-- The free list is a cycle through the base, in the order of the addresses and with no two blocks that
touch. The live blocks have no byte in common with each other or with the free ones, lie in the memory
from sbrk and have the bytes that were asked for. All the units are accounted for. -/
structure Good (base : Nat) (s : State) (fs : List Block) : Prop where
  holds : s.heap.Holds base fs
  ordered : Block.Ordered base fs
  freep : s.heap.freep ∈ base :: fs.map Block.addr
  above : ∀ x ∈ s.live, base + 2 * HEADER ≤ x.1
  sizes : ∀ x ∈ s.live, s.heap.size (liveBlock x).addr = (liveBlock x).units
  bytes : ∀ x ∈ s.live, x.2.toNat ≤ HEADER * ((liveBlock x).units - 1)
  apart : (s.live.map liveBlock).Pairwise fun b c => ∀ a, b.has a → ¬c.has a
  free : ∀ a, Block.Covered fs a → ¬Block.Covered (s.live.map liveBlock) a
  inside : ∀ a, Block.Covered fs a ∨ Block.Covered (s.live.map liveBlock) a → Block.Covered s.got a
  total : Block.total fs + Block.total (s.live.map liveBlock) = Block.total s.got

namespace Good

variable {base : Nat} {s : State} {fs : List Block} {x : Nat × UInt32}

theorem live_above (hg : Good base s fs) (hx : x ∈ s.live) : base + HEADER ≤ (liveBlock x).addr := by
  have := hg.above x hx
  unfold liveBlock HEADER at *
  dsimp only
  omega

theorem live_ptr (hg : Good base s fs) (hx : x ∈ s.live) : (liveBlock x).addr + HEADER = x.1 := by
  have := hg.above x hx
  unfold liveBlock HEADER at *
  dsimp only
  omega

theorem not_mem (hg : Good base s fs) (hx : x ∈ s.live) :
    (liveBlock x).addr ∉ base :: fs.map Block.addr := by
  intro hm
  rcases List.mem_cons.mp hm with he | hm
  · have := hg.live_above hx
    unfold HEADER at this
    omega
  · obtain ⟨c, hc, he⟩ := List.mem_map.mp hm
    refine hg.free c.addr ⟨c, hc, Block.has_addr (hg.ordered.pos c hc)⟩ ⟨liveBlock x, ?_, ?_⟩
    · exact List.mem_map_of_mem hx
    · rw [he]
      exact Block.has_addr (liveBlock_pos x)

theorem length_le (hg : Good base s fs) : fs.length ≤ Block.total s.got := by
  have h1 := hg.ordered.length_le
  have h2 := hg.total
  omega

theorem freed {ap : Nat} (hg : Good base s fs) (hap : ap ∈ s.live.map Prod.fst)
    (hlt : Block.total s.got < 2 ^ 32) :
    ∃ h fs', s.heap.free s.rounds ap = some h ∧
      Good base { s with heap := h, live := s.live.eraseP (·.1 = ap) } fs' := by
  obtain ⟨x, hx, hxap⟩ := List.mem_map.mp hap
  obtain ⟨y, l₁, l₂, -, hy, hlive, herase⟩ :=
    List.exists_of_eraseP (p := (·.1 = ap)) hx (by simpa using hxap)
  have hyl : y ∈ s.live := hlive ▸ List.mem_append_right _ List.mem_cons_self
  have hsub : ∀ z ∈ l₁ ++ l₂, z ∈ s.live := fun z hz => by
    rw [hlive]
    rcases List.mem_append.mp hz with hz | hz
    · exact List.mem_append_left _ hz
    · exact List.mem_append_right _ (List.mem_cons_of_mem y hz)
  obtain rfl : y.1 = ap := by simpa using hy
  have hapart := hg.apart
  have htot := hg.total
  rw [hlive, List.map_append, List.map_cons] at hapart htot
  rw [Block.total_append, Block.total_cons] at htot
  -- the other live blocks have no byte of this one
  have hother : ∀ z ∈ l₁ ++ l₂, ∀ a, (liveBlock y).has a → ¬(liveBlock z).has a := by
    obtain ⟨-, h2, h3⟩ := List.pairwise_append.mp hapart
    intro z hz a hya hza
    rcases List.mem_append.mp hz with hz | hz
    · exact h3 _ (List.mem_map_of_mem hz) _ List.mem_cons_self a hza hya
    · exact (List.pairwise_cons.mp h2).1 _ (List.mem_map_of_mem hz) a hya hza
  have hlen : fs.length < s.rounds := by
    have := hg.length_le
    unfold State.rounds
    omega
  obtain ⟨h, fs', hfree, hf⟩ := hg.holds.free hg.ordered hg.freep (hg.sizes y hyl) (liveBlock_pos y)
    (hg.live_above hyl) (fun c hc a ha hca => hg.free a ⟨c, hc, hca⟩ ⟨_, List.mem_map_of_mem hyl, ha⟩)
    (by omega) hlen
  refine ⟨h, fs', hfree, ?_⟩
  rw [herase]
  refine ⟨hf.holds, hf.released.ordered, hf.freep, fun z hz => hg.above z (hsub z hz), fun z hz => ?_,
    fun z hz => hg.bytes z (hsub z hz), ?_, fun a ha hl => ?_, fun a ha => ?_, ?_⟩
  · have hmem : h.mem (liveBlock z).addr = s.heap.mem (liveBlock z).addr := by
      refine hf.frame _ fun hm => ?_
      rcases List.mem_cons.mp hm with he | hm
      · exact hother z hz _ (he ▸ Block.has_addr (liveBlock_pos y)) (Block.has_addr (liveBlock_pos z))
      · exact hg.not_mem (hsub z hz) hm
    exact (Heap.size_congr hmem).trans (hg.sizes z (hsub z hz))
  · rw [List.map_append]
    obtain ⟨h1, h2, h3⟩ := List.pairwise_append.mp hapart
    exact List.pairwise_append.mpr ⟨h1, (List.pairwise_cons.mp h2).2, fun a ha c hc =>
      h3 a ha c (List.mem_cons_of_mem _ hc)⟩
  · obtain ⟨b, hb, hba⟩ := hl
    obtain ⟨z, hz, rfl⟩ := List.mem_map.mp hb
    rcases (hf.released.covered a).mp ha with ha | ha
    · exact hg.free a ha ⟨_, List.mem_map_of_mem (hsub z hz), hba⟩
    · exact hother z hz a ha hba
  · refine hg.inside a ?_
    rcases ha with ha | ⟨b, hb, hba⟩
    · rcases (hf.released.covered a).mp ha with ha | ha
      · exact .inl ha
      · exact .inr ⟨_, List.mem_map_of_mem hyl, ha⟩
    · obtain ⟨z, hz, rfl⟩ := List.mem_map.mp hb
      exact .inr ⟨_, List.mem_map_of_mem (hsub z hz), hba⟩
  · rw [hf.released.total, List.map_append, Block.total_append]
    dsimp only
    omega

theorem carved {c : Block} {h : Heap} {fs' : List Block} {nbytes : UInt32} (hg : Good base s fs)
    (hc : Heap.Carved s.heap base fs c h fs') (hn : c.units = (Heap.units nbytes).toNat) :
    Good base { s with heap := h, live := (c.addr + HEADER, nbytes) :: s.live } fs' := by
  have hblock : liveBlock (c.addr + HEADER, nbytes) = c := by
    rw [liveBlock, ← hn, Nat.add_sub_cancel]
  have hpos : 0 < c.units := hn ▸ Heap.units_pos nbytes
  have hnew : ∀ a, c.has a → ¬Block.Covered (s.live.map liveBlock) a := fun a ha =>
    hg.free a ((hc.taken.covered a).mpr (.inr ha))
  have htotal := hc.taken.total
  refine ⟨hc.holds, hc.taken.ordered, hc.freep, List.forall_mem_cons.mpr ⟨?_, hg.above⟩,
    List.forall_mem_cons.mpr ⟨?_, fun z hz => ?_⟩, List.forall_mem_cons.mpr ⟨?_, hg.bytes⟩, ?_,
    fun a ha hl => ?_, fun a ha => ?_, ?_⟩
  · have := hc.taken.above
    omega
  · rw [hblock]
    exact hc.size
  · have hmem : h.mem (liveBlock z).addr = s.heap.mem (liveBlock z).addr := by
      refine hc.frame _ fun hm => ?_
      rcases List.mem_cons.mp hm with he | hm
      · exact hnew _ (he ▸ Block.has_addr hpos)
          ⟨_, List.mem_map_of_mem hz, Block.has_addr (liveBlock_pos z)⟩
      · exact hg.not_mem hz hm
    exact (Heap.size_congr hmem).trans (hg.sizes z hz)
  · rw [hblock, hn, Heap.units_toNat]
    unfold HEADER
    dsimp only
    omega
  · rw [List.map_cons, hblock]
    exact List.pairwise_cons.mpr ⟨fun b hb a ha hba => hnew a ha ⟨b, hb, hba⟩, hg.apart⟩
  · rw [List.map_cons, hblock] at hl
    rcases Block.covered_cons.mp hl with hl | hl
    · exact hc.taken.apart a ha hl
    · exact hg.free a ((hc.taken.covered a).mpr (.inl ha)) hl
  · refine hg.inside a ?_
    rcases ha with ha | ha
    · exact .inl ((hc.taken.covered a).mpr (.inl ha))
    · rw [List.map_cons, hblock] at ha
      rcases Block.covered_cons.mp ha with ha | ha
      · exact .inl ((hc.taken.covered a).mpr (.inr ha))
      · exact .inr ha
  · have := hg.total
    rw [List.map_cons, hblock, Block.total_cons]
    dsimp only
    omega

/-- A region from sbrk goes into the free list. -/
theorem grown {n : UInt32} {a fuel : Nat} (hg : Good base s fs) (hn : 0 < n.toNat)
    (ha : base + HEADER ≤ a) (hfresh : ∀ g ∈ s.got, Block.Apart ⟨a, n.toNat⟩ g)
    (hlt : Block.total s.got + n.toNat < 2 ^ 32) (hfuel : fs.length < fuel) :
    ∃ h fs', (s.heap.setSize a n).free fuel (a + HEADER) = some h ∧
      Good base { s with heap := h, got := ⟨a, n.toNat⟩ :: s.got } fs' ∧
      (∃ c ∈ fs', n.toNat ≤ c.units) ∧ fs'.length ≤ fs.length + 1 := by
  have hout : ∀ x, Block.has ⟨a, n.toNat⟩ x → ¬Block.Covered s.got x := fun x hx ⟨g, hgm, hgx⟩ =>
    (hfresh g hgm).not_has hx hgx
  have hself : Block.has ⟨a, n.toNat⟩ a := Block.has_addr hn
  have hane : a ∉ base :: fs.map Block.addr := fun hm => by
    rcases List.mem_cons.mp hm with he | hm
    · unfold HEADER at ha
      omega
    · obtain ⟨c, hc, rfl⟩ := List.mem_map.mp hm
      exact hout _ hself (hg.inside _ (.inl ⟨c, hc, Block.has_addr (hg.ordered.pos c hc)⟩))
  have hmem : ∀ x, x ≠ a → (s.heap.setSize a n).mem x = s.heap.mem x := fun x hx => Heap.setSize_of_ne hx
  have hne : ∀ x ∈ base :: fs.map Block.addr, x ≠ a := fun x hx he => hane (he ▸ hx)
  have hholds : (s.heap.setSize a n).Holds base fs := by
    refine ⟨?_, fun b hb => ?_, ?_⟩
    · rw [Heap.ptr_setSize]
      exact hg.holds.linked
    · rw [Heap.size_congr (hmem _ (hne _ (List.mem_cons_of_mem _ (List.mem_map_of_mem hb))))]
      exact hg.holds.sizes b hb
    · rw [hmem base (hne base List.mem_cons_self), hg.holds.base]
  have hsize : (s.heap.setSize a n).size a = n.toNat := by
    rw [Heap.size, Heap.setSize_self]
  have htot := hg.total
  obtain ⟨h, fs', hfree, hf⟩ := hholds.free hg.ordered hg.freep hsize hn ha
    (fun c hc x hx hcx => hout x hx (hg.inside x (.inl ⟨c, hc, hcx⟩))) (by dsimp only; omega) hfuel
  refine ⟨h, fs', hfree, ⟨hf.holds, hf.released.ordered, hf.freep, hg.above, fun z hz => ?_, hg.bytes,
    hg.apart, fun x hx hl => ?_, fun x hx => ?_, ?_⟩, hf.released.fits, hf.released.length⟩
  · have hza : (liveBlock z).addr ≠ a := fun he => hout a hself (hg.inside a (.inr
      ⟨_, List.mem_map_of_mem hz, he ▸ Block.has_addr (liveBlock_pos z)⟩))
    have hzm : h.mem (liveBlock z).addr = s.heap.mem (liveBlock z).addr := by
      rw [hf.frame _ fun hm => ?_, hmem _ hza]
      rcases List.mem_cons.mp hm with he | hm
      · exact hza he
      · exact hg.not_mem hz hm
    exact (Heap.size_congr hzm).trans (hg.sizes z hz)
  · rcases (hf.released.covered x).mp hx with hx | hx
    · exact hg.free x hx hl
    · exact hout x hx (hg.inside x (.inr hl))
  · rw [Block.covered_cons]
    rcases hx with hx | hx
    · rcases (hf.released.covered x).mp hx with hx | hx
      · exact .inr (hg.inside x (.inl hx))
      · exact .inl hx
    · exact .inr (hg.inside x (.inr hx))
  · rw [hf.released.total, Block.total_cons]
    dsimp only
    omega

end Good

def Inv (base : Nat) (s : State) : Prop :=
  s.heap.freep = 0 ∧ s.live = [] ∧ s.got = [] ∨ ∃ fs, Good base s fs

variable {base : Nat} {s : State} {fs : List Block}

theorem Good.freep_ne (hg : Good base s fs) (hbase : 0 < base) : s.heap.freep ≠ 0 := by
  rcases List.mem_cons.mp hg.freep with he | hm
  · omega
  · have := (List.pairwise_cons.mp hg.ordered.addrs).1 _ hm
    omega

theorem Inv.start (hi : Inv base s) (hbase : 0 < base) :
    ∃ fs, Good base { s with heap := s.heap.start base } fs := by
  rcases hi with ⟨h0, hl, hgot⟩ | ⟨fs, hg⟩
  · rw [Heap.start, if_pos h0]
    have hmem : Function.update s.heap.mem base ⟨base, 0⟩ base = ⟨base, 0⟩ := Function.update_self _ _ _
    refine ⟨[], ⟨?_, by simp, congrArg Header.size hmem⟩, .nil, List.mem_cons_self,
      ?_, ?_, ?_, ?_, ?_, ?_, ?_⟩
    · exact congrArg Header.ptr hmem
    all_goals simp [hl, hgot, Block.Covered]
  · rw [Heap.start, if_neg (hg.freep_ne hbase)]
    exact ⟨fs, hg⟩

/-- Once its answer is used, sbrk is not asked again. -/
theorem mallocLoop_left {n : UInt32} {fuel prevp p ap : Nat} {h h' : Heap} {left : Option (Option Nat)}
    (hm : Heap.mallocLoop n fuel h prevp p none = some (h', ap, left)) : left = none := by
  induction fuel generalizing h prevp p with
  | zero => cases hm
  | succ fuel ih =>
    rw [Heap.mallocLoop.eq_def] at hm
    dsimp only at hm
    split_ifs at hm
    · cases hm
      rfl
    · exact ih hm

/-- What the loop of malloc does: it takes a free block, or fails, or takes from the region. -/
theorem Good.malloc (hg : Good base s fs) (hbase : 0 < base) {nbytes : UInt32} {r : Option Nat}
    (hs : s.Sane base (.malloc nbytes r)) :
    (∃ c h fs', Heap.mallocLoop (Heap.units nbytes) s.rounds s.heap s.heap.freep
        (s.heap.mem s.heap.freep).ptr (some r) = some (h, c + HEADER, some r) ∧
      Good base { s with heap := h, live := (c + HEADER, nbytes) :: s.live } fs') ∨
    (r = none ∧ Heap.mallocLoop (Heap.units nbytes) s.rounds s.heap s.heap.freep
        (s.heap.mem s.heap.freep).ptr (some r) = some (s.heap, 0, none)) ∨
    ∃ a, r = some a ∧
      (Block.total (State.region nbytes a :: s.got) < 2 ^ 32 →
        ∃ c h fs', Heap.mallocLoop (Heap.units nbytes) s.rounds s.heap s.heap.freep
          (s.heap.mem s.heap.freep).ptr (some r) = some (h, c + HEADER, none) ∧
        Good base ⟨h, (c + HEADER, nbytes) :: s.live, State.region nbytes a :: s.got⟩ fs') ∧
      ∀ h ap left, Heap.mallocLoop (Heap.units nbytes) s.rounds s.heap s.heap.freep
        (s.heap.mem s.heap.freep).ptr (some r) = some (h, ap, left) → left = none := by
  have hn := Heap.units_pos nbytes
  have hlen := hg.length_le
  by_cases hbig : ∃ b ∈ fs, (Heap.units nbytes).toNat ≤ b.units
  · have hfuel : fs.length < s.rounds := by
      unfold State.rounds
      omega
    obtain ⟨c, h, fs', hc, hloop, hcarved⟩ := hg.holds.found hg.ordered hg.freep hn hbig hfuel (some r)
    exact .inl ⟨c.addr, h, fs', hloop, hg.carved hcarved hc⟩
  have hsmall : ∀ b ∈ fs, b.units < (Heap.units nbytes).toNat := fun b hb =>
    Nat.not_le.mp fun hle => hbig ⟨b, hb, hle⟩
  obtain ⟨fuel, hfuel⟩ : ∃ k, s.rounds = k + 1 + fs.length :=
    ⟨s.rounds - 1 - fs.length, by unfold State.rounds; omega⟩
  have hlt : fs.length + 1 < fuel := by
    unfold State.rounds at hfuel
    omega
  rw [hfuel, hg.holds.exhausted hg.ordered hg.freep hn hsmall fuel r]
  cases r with
  | none => exact .inr (.inl ⟨rfl, rfl⟩)
  | some a =>
    refine .inr (.inr ⟨a, rfl, fun htotal => ?_, fun h ap left hm => ?_⟩)
    · obtain ⟨ha, hfresh⟩ := hs.2 a rfl
      rw [Block.total_cons, Nat.add_comm] at htotal
      have hcore := Heap.units_le_coreUnits (Heap.units nbytes)
      obtain ⟨h₁, fs₁, hfree, hg₁, hfits, hlen₁⟩ :=
        hg.grown (Nat.lt_of_lt_of_le hn hcore) ha hfresh htotal
        (show fs.length < fuel by omega)
      have hfits' : ∃ b ∈ fs₁, (Heap.units nbytes).toNat ≤ b.units := by
        obtain ⟨b, hb, hle⟩ := hfits
        exact ⟨b, hb, Nat.le_trans hcore hle⟩
      obtain ⟨c, h, fs', hc, hloop, hcarved⟩ := hg₁.holds.found hg₁.ordered hg₁.freep hn hfits'
        (show fs₁.length < fuel by omega) none
      refine ⟨c.addr, h, fs', ?_, hg₁.carved hcarved hc⟩
      rw [Heap.morecore, hfree]
      dsimp only [Option.map_some]
      rw [if_neg (hg₁.freep_ne hbase)]
      exact hloop
    · split at hm
      · cases hm
      · split_ifs at hm
        · cases hm
          rfl
        · exact mallocLoop_left hm

theorem next_free {ap : Nat} (hs : s.Sane base (.free ap)) :
    s.next base (.free ap) = (s.heap.free s.rounds ap).map fun h =>
      { s with heap := h, live := s.live.eraseP (·.1 = ap) } := if_pos hs

theorem next_malloc {nbytes : UInt32} {r : Option Nat} (hs : s.Sane base (.malloc nbytes r)) :
    s.next base (.malloc nbytes r) = (Heap.mallocLoop (Heap.units nbytes) s.rounds (s.heap.start base)
      (s.heap.start base).freep ((s.heap.start base).mem (s.heap.start base).freep).ptr
      (some r)).map (s.returned nbytes r) := if_pos hs

/-- A call that keeps the memory below 2^32 units returns, and keeps the invariant. -/
theorem Inv.progress (hi : Inv base s) (hbase : 0 < base) {c : Call} (hs : s.Sane base c)
    (hlt : Block.total s.got < 2 ^ 32)
    (hroom : ∀ n a, c = .malloc n (some a) → Block.total (State.region n a :: s.got) < 2 ^ 32) :
    ∃ s', s.next base c = some s' ∧ Inv base s' := by
  cases c with
  | free ap =>
    rcases hi with ⟨-, hl, -⟩ | ⟨fs, hg⟩
    · have hap : ap ∈ s.live.map Prod.fst := hs
      rw [hl] at hap
      cases hap
    · obtain ⟨h, fs', hfree, hg'⟩ := hg.freed hs hlt
      exact ⟨_, by rw [next_free hs, hfree, Option.map_some], .inr ⟨fs', hg'⟩⟩
  | malloc nbytes r =>
    obtain ⟨fs, hg⟩ := hi.start hbase
    rcases hg.malloc hbase hs with ⟨x, h, fs', hloop, hg'⟩ | ⟨rfl, hloop⟩ | ⟨a, rfl, hloop, -⟩
    · refine ⟨_, (next_malloc hs).trans (congrArg _ hloop), .inr ⟨fs', ?_⟩⟩
      exact hg'
    · exact ⟨_, (next_malloc hs).trans (congrArg _ hloop), .inr ⟨fs, hg⟩⟩
    · obtain ⟨x, h, fs', hloop, hg'⟩ := hloop (hroom nbytes a rfl)
      refine ⟨_, (next_malloc hs).trans (congrArg _ hloop), .inr ⟨fs', ?_⟩⟩
      exact hg'

/-- A call that leaves the memory below 2^32 units keeps the invariant. -/
theorem Inv.step (hi : Inv base s) (hbase : 0 < base) {c : Call} {s' : State}
    (hs : s.next base c = some s') (hlt : Block.total s.got < 2 ^ 32)
    (hlt' : Block.total s'.got < 2 ^ 32) : Inv base s' := by
  have hsane : s.Sane base c := by
    by_contra hn
    unfold State.next at hs
    rw [if_neg hn] at hs
    cases hs
  by_cases hroom : ∀ n a, c = .malloc n (some a) → Block.total (State.region n a :: s.got) < 2 ^ 32
  · obtain ⟨s'', hs'', hi'⟩ := hi.progress hbase hsane hlt hroom
    obtain rfl : s' = s'' := Option.some.inj (hs.symm.trans hs'')
    exact hi'
  · -- the region was not used, since the memory has not grown
    obtain ⟨n, a, rfl, hbig⟩ : ∃ n a, c = .malloc n (some a) ∧
        ¬Block.total (State.region n a :: s.got) < 2 ^ 32 := by
      by_contra hc
      exact hroom fun n a he => by_contra fun hb => hc ⟨n, a, he, hb⟩
    obtain ⟨fs, hg⟩ := hi.start hbase
    rcases hg.malloc hbase hsane with ⟨x, h, fs', hloop, hg'⟩ | ⟨hr, -⟩ | ⟨a', hr, -, hleft⟩
    · obtain rfl : s' = _ := Option.some.inj
        (hs.symm.trans ((next_malloc hsane).trans (congrArg _ hloop)))
      refine .inr ⟨fs', ?_⟩
      exact hg'
    · cases hr
    · cases hr
      rw [next_malloc hsane] at hs
      obtain ⟨⟨h, ap, left⟩, hloop, rfl⟩ := Option.map_eq_some_iff.mp hs
      obtain rfl := hleft h ap left hloop
      exact absurd hlt' hbig

/-- While sbrk has given fewer than 2^32 units: the free list is one cycle through the base in address
order, without blocks that touch or overlap; live blocks are apart from each other and from the free ones,
in memory from sbrk, and large enough; free and live units are the units obtained; and both loops
return. -/
theorem allocator_invariant {mem : Nat → Header} {tr : List (Event State Call)} (hbase : 0 < base)
    (hp : Path (State.next base) (State.boot mem) tr s)
    (hsmall : ∀ e ∈ tr, Block.total e.post.got < 2 ^ 32) :
    Inv base s ∧
      ∀ c, s.Sane base c →
        (∀ n a, c = .malloc n (some a) → Block.total (State.region n a :: s.got) < 2 ^ 32) →
        ∃ s', s.next base c = some s' := by
  have hI : Inv base s ∧ Block.total s.got < 2 ^ 32 := by
    refine hp.invariant (I := fun s => Inv base s ∧ Block.total s.got < 2 ^ 32)
      (fun s c s' hs hn hC => ?_)
      ⟨.inl ⟨rfl, rfl, rfl⟩, Nat.two_pow_pos 32⟩ hsmall
    exact ⟨hs.1.step hbase hn hs.2 hC, hC⟩
  refine ⟨hI.1, fun c hs hroom => ?_⟩
  obtain ⟨s', hs', -⟩ := hI.1.progress hbase hs hI.2 hroom
  exact ⟨s', hs'⟩

/-- Small blocks: the middle one of three is freed first, and the others join it. -/
def threeBlocks : List Call :=
  [.malloc 100 (some 4096), .malloc 40 none, .malloc 7 none, .free 69456, .free 69520, .free 69424]

theorem allocator_invariant_three :
    Inv 1024 (final (State.next 1024) (State.boot fun _ => ⟨0, 0⟩) threeBlocks) ∧
      (final (State.next 1024) (State.boot fun _ => ⟨0, 0⟩) threeBlocks).heap.size 4096 = 4096 := by
  have hp : Path (State.next 1024) (State.boot fun _ => ⟨0, 0⟩)
      (events (State.next 1024) (State.boot fun _ => ⟨0, 0⟩) threeBlocks)
      (final (State.next 1024) (State.boot fun _ => ⟨0, 0⟩) threeBlocks) :=
    path_final (by decide +kernel)
  exact ⟨(allocator_invariant (by decide) hp (by decide +kernel)).1, by decide +kernel⟩

/-- 33 regions of 2^27 - 1 units, one behind the other, each allocated at once. -/
def hugeBlocks : List Call :=
  (List.range 33).map (fun i => .malloc 2147483616 (some (4096 + 16 * (i * (2 ^ 27 - 1))))) ++
    (List.range 33).map fun i => .free (4096 + 16 * (i * (2 ^ 27 - 1)) + 16)

/-- Freed in this order they join into one block whose size does not fit 32 bits: units are lost. -/
theorem allocator_wraps :
    ∃ tr s, Path (State.next 1024) (State.boot fun _ => ⟨0, 0⟩) tr s ∧ s.live = [] ∧
      Block.total s.got = 33 * (2 ^ 27 - 1) ∧
      ∀ fs, s.heap.Holds 1024 fs → Block.Ordered 1024 fs → Block.total fs ≠ Block.total s.got := by
  have hp : Path (State.next 1024) (State.boot fun _ => ⟨0, 0⟩)
      (events (State.next 1024) (State.boot fun _ => ⟨0, 0⟩) hugeBlocks)
      (final (State.next 1024) (State.boot fun _ => ⟨0, 0⟩) hugeBlocks) :=
    path_final (by decide +kernel)
  have hgot : Block.total (final (State.next 1024) (State.boot fun _ => ⟨0, 0⟩) hugeBlocks).got =
      33 * (2 ^ 27 - 1) := by decide +kernel
  refine ⟨_, _, hp, by decide +kernel, hgot, fun fs hh ho => ?_⟩
  have h0 : (final (State.next 1024) (State.boot fun _ => ⟨0, 0⟩) hugeBlocks).heap.ptr 1024 = 4096 := by
    decide +kernel
  have h1 : (final (State.next 1024) (State.boot fun _ => ⟨0, 0⟩) hugeBlocks).heap.ptr 4096 = 1024 := by
    decide +kernel
  have hsize : (final (State.next 1024) (State.boot fun _ => ⟨0, 0⟩) hugeBlocks).heap.size 4096 =
      2 ^ 27 - 33 := by decide +kernel
  rw [hgot]
  have hl := hh.linked
  cases fs with
  | nil => cases h0.symm.trans hl
  | cons b fs =>
    have hb : b.addr = 4096 := hl.1.symm.trans h0
    cases fs with
    | nil =>
      have hu := hh.sizes b List.mem_cons_self
      rw [hb, hsize] at hu
      rw [Block.total_cons, ← hu]
      decide
    | cons c fs =>
      have hc : c.addr = 1024 := by
        have := hl.2.1
        rw [hb, h1] at this
        exact this.symm
      have := ho.above c (by simp)
      rw [hc] at this
      exact absurd this (by decide)

end Xv6.Malloc
