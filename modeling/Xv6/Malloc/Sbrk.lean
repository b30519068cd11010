import Xv6.Framework.Words
import Xv6.Malloc.Allocator

namespace Xv6.Malloc

open Xv6.Framework

namespace Heap

/-- The int that sbrk gets for a request: nu * sizeof(Header), of which 32 bits are left. -/
def sbrkArg (nbytes : UInt32) : Int32 :=
  (UInt32.ofNat (HEADER * (coreUnits (units nbytes)).toNat)).toInt32

/-- The count is what morecore meant, and morecore asks for enough. -/
def Asked (nbytes : UInt32) : Prop :=
  0 < (sbrkArg nbytes).toInt ∧
    (sbrkArg nbytes).toInt = HEADER * (coreUnits (units nbytes)).toNat ∧
    (units nbytes).toNat ≤ (coreUnits (units nbytes)).toNat

end Heap

/-- A process with its heap, and its size, which is the break. -/
structure Proc where
  heap : State
  sz : Nat

/-- A call of malloc, where the kernel has the pages for sbrk or not; a call of free. -/
inductive Act
  | malloc (nbytes : UInt32) (pages : Bool)
  | free (ap : Nat)

/-- A request whose byte count sbrk's int can hold. -/
def Act.Fits : Act → Prop
  | .malloc nbytes _ => nbytes.toNat ≤ 2 ^ 31 - 32
  | .free _ => True

instance : (c : Act) → Decidable c.Fits
  | .malloc _ _ => inferInstanceAs (Decidable (_ ≤ _))
  | .free _ => inferInstanceAs (Decidable True)

/-- All the memory there is for pages. -/
def MEMORY : Nat := 2 ^ 27

/-- The size after growproc(n), unless it fails. A size that would be negative is a large uint64,
which uvmdealloc does not shrink to. -/
def growproc (sz : Nat) (n : Int) (pages : Bool) : Option Nat :=
  if 0 < n then if pages ∧ sz + n ≤ MEMORY then some (sz + n).toNat else none
  else if sz + n < 0 then some sz
  else some (sz + n).toNat

namespace Proc

def next (base : Nat) (p : Proc) : Act → Option Proc
  | .malloc nbytes pages =>
    let grown := growproc p.sz (Heap.sbrkArg nbytes).toInt pages
    let r := grown.map fun _ => p.sz
    (p.heap.heap.malloc base p.heap.rounds nbytes r).map fun res =>
      ⟨p.heap.returned nbytes r res, if res.2.2 = none then grown.getD p.sz else p.sz⟩
  | .free ap => (p.heap.next base (.free ap)).map fun s => { p with heap := s }

def boot (mem : Nat → Header) (sz : Nat) : Proc := ⟨.boot mem, sz⟩

/-- What sbrk gave is between the data and the break. -/
structure Below (base : Nat) (p : Proc) : Prop where
  inv : Inv base p.heap
  data : base + HEADER ≤ p.sz
  memory : p.sz ≤ MEMORY
  got : ∀ g ∈ p.heap.got, g.stop ≤ p.sz
  total : HEADER * Block.total p.heap.got ≤ p.sz

end Proc

namespace Heap

theorem coreUnits_toNat (nbytes : UInt32) :
    (coreUnits (units nbytes)).toNat = max 4096 ((nbytes.toNat + 15) / 16 + 1) := by
  rw [← units_toNat, coreUnits]
  split
  · rename_i h
    have : (units nbytes).toNat < 4096 := h
    change 4096 = _
    omega
  · rename_i h
    have : ¬ (units nbytes).toNat < 4096 := h
    omega

theorem sbrkArg_toInt {nbytes : UInt32} (h : HEADER * (coreUnits (units nbytes)).toNat < 2 ^ 31) :
    (sbrkArg nbytes).toInt = HEADER * (coreUnits (units nbytes)).toNat := by
  have hnat : (UInt32.ofNat (HEADER * (coreUnits (units nbytes)).toNat)).toNat =
      HEADER * (coreUnits (units nbytes)).toNat :=
    UInt32.toNat_ofNat_of_lt' (h.trans (by decide))
  rw [sbrkArg, Words.toInt_toInt32 (by rw [hnat]; exact h), hnat]
  rfl

theorem asked_iff (nbytes : UInt32) : Asked nbytes ↔ nbytes.toNat ≤ 2 ^ 31 - 32 := by
  have hlt : (sbrkArg nbytes).toInt < 2 ^ 31 := Int32.toInt_lt _
  have hunits := coreUnits_toNat nbytes
  constructor
  · rintro ⟨-, heq, -⟩
    rw [heq, HEADER] at hlt
    omega
  · intro h
    have heq := @sbrkArg_toInt nbytes (by rw [HEADER]; omega)
    refine ⟨?_, heq, units_le_coreUnits _⟩
    rw [heq, HEADER]
    omega

end Heap

namespace Proc

variable {base : Nat} {p p' : Proc}

theorem Below.lt (h : Below base p) : Block.total p.heap.got < 2 ^ 32 := by
  have := h.total
  have := h.memory
  unfold HEADER MEMORY at *
  omega

/-- A call of the allocator that takes no memory. -/
theorem Below.same (h : Below base p) (hbase : 0 < base) {c : Call} {s : State}
    (hs : p.heap.next base c = some s) (hgot : s.got = p.heap.got) : Below base ⟨s, p.sz⟩ := by
  have hinv := h.inv.step hbase hs h.lt (hgot ▸ h.lt)
  exact ⟨hinv, h.data, h.memory, hgot ▸ h.got, hgot ▸ h.total⟩

/-- A call that takes all that sbrk gave. -/
theorem Below.grown (h : Below base p) (hbase : 0 < base) {c : Call} {s : State} {nbytes : UInt32}
    (hs : p.heap.next base c = some s) (hgot : s.got = State.region nbytes p.sz :: p.heap.got)
    (hmem : (State.region nbytes p.sz).stop ≤ MEMORY) :
    Below base ⟨s, (State.region nbytes p.sz).stop⟩ := by
  have hle : p.sz ≤ (State.region nbytes p.sz).stop := Nat.le_add_right _ _
  have htotal : HEADER * Block.total s.got ≤ (State.region nbytes p.sz).stop := by
    have := h.total
    rw [hgot, Block.total, List.map_cons, List.sum_cons, Nat.mul_add, Nat.add_comm]
    exact Nat.add_le_add_right this _
  have hlt : Block.total s.got < 2 ^ 32 := by
    unfold HEADER MEMORY at *
    omega
  refine ⟨h.inv.step hbase hs h.lt hlt, h.data.trans hle, hmem, ?_, htotal⟩
  rw [hgot, List.forall_mem_cons]
  exact ⟨Nat.le_refl _, fun g hg => (h.got g hg).trans hle⟩

theorem Below.free (h : Below base p) (hbase : 0 < base) {ap : Nat}
    (hn : p.next base (.free ap) = some p') : Below base p' := by
  obtain ⟨s, hs, rfl⟩ := Option.map_eq_some_iff.mp hn
  refine h.same hbase hs ?_
  rw [State.next] at hs
  split_ifs at hs
  obtain ⟨_, -, rfl⟩ := Option.map_eq_some_iff.mp hs
  rfl

theorem growproc_asked {nbytes : UInt32} (hask : Heap.Asked nbytes) (sz : Nat) (pages : Bool) :
    growproc sz (Heap.sbrkArg nbytes).toInt pages = none ∨
      ∃ sz', growproc sz (Heap.sbrkArg nbytes).toInt pages = some sz' ∧ sz' ≤ MEMORY ∧
        sz' = (State.region nbytes sz).stop := by
  obtain ⟨hpos, heq, -⟩ := hask
  rw [growproc, if_pos hpos, heq]
  split
  · rename_i hle
    refine .inr ⟨_, rfl, by omega, ?_⟩
    unfold Block.stop State.region HEADER
    dsimp only
    omega
  · exact .inl rfl

theorem Below.malloc (h : Below base p) (hbase : 0 < base) {nbytes : UInt32} {pages : Bool}
    (hask : Heap.Asked nbytes) (hn : p.next base (.malloc nbytes pages) = some p') :
    Below base p' := by
  obtain ⟨⟨heap, ap, left⟩, hres, rfl⟩ := Option.map_eq_some_iff.mp hn
  have hlt : HEADER * (Heap.coreUnits (Heap.units nbytes)).toNat < 2 ^ 31 := by
    have := Int32.toInt_lt (Heap.sbrkArg nbytes)
    have := hask.2.1
    omega
  have hnext : ∀ r : Option Nat, (∀ a ∈ r, a = p.sz) →
      p.heap.heap.malloc base p.heap.rounds nbytes r = some (heap, ap, left) →
      p.heap.next base (.malloc nbytes r) = some (p.heap.returned nbytes r (heap, ap, left)) := by
    intro r hr hres
    rw [State.next, if_pos]
    · exact congrArg _ hres
    · refine ⟨hlt, fun a ha => ?_⟩
      rw [hr a ha]
      exact ⟨h.data, fun g hg => .inr (h.got g hg)⟩
  rcases growproc_asked hask p.sz pages with hg | ⟨_, hg, hmem, rfl⟩
  all_goals
    rw [hg] at hres ⊢
    have hs := hnext _ (by simp) hres
    cases left
  · exact h.same hbase hs rfl
  · exact h.same hbase hs rfl
  · exact h.grown hbase hs rfl hmem
  · exact h.same hbase hs rfl

/-- The bytes of a live pointer are below the break. -/
theorem Below.live (h : Below base p) {x : Nat × UInt32} (hx : x ∈ p.heap.live) :
    x.1 + x.2.toNat ≤ p.sz := by
  rcases h.inv with ⟨-, hl, -⟩ | ⟨fs, hg⟩
  · rw [hl] at hx
    cases hx
  · have hbytes := hg.bytes x hx
    have hptr := hg.live_ptr hx
    have hpos := liveBlock_pos x
    obtain ⟨g, hmem, -, hlt⟩ := hg.inside ((liveBlock x).stop - 1)
      (.inr ⟨_, List.mem_map_of_mem hx, by unfold Block.stop HEADER; omega, by
        unfold Block.stop HEADER; omega⟩)
    have hstop := h.got g hmem
    unfold Block.stop HEADER at *
    omega

theorem Below.step (h : Below base p) (hbase : 0 < base) {c : Act}
    (hfits : c.Fits) (hn : p.next base c = some p') : Below base p' := by
  cases c with
  | malloc nbytes pages => exact h.malloc hbase ((Heap.asked_iff nbytes).mpr hfits) hn
  | free ap => exact h.free hbase hn

end Proc

/-- The byte count that reaches sbrk is the one meant just for requests up to 2^31 - 32 bytes; while
all are, every pointer that malloc returned has its bytes below the break. -/
theorem malloc_asks_enough_iff (nbytes : UInt32) :
    (Heap.Asked nbytes ↔ nbytes.toNat ≤ 2 ^ 31 - 32) ∧
      ∀ (base sz : Nat) (mem : Nat → Header) (tr : List (Event Proc Act)) (p : Proc), 0 < base →
        base + HEADER ≤ sz → sz ≤ MEMORY → Path (Proc.next base) (Proc.boot mem sz) tr p →
        (∀ e ∈ tr, e.label.Fits) → ∀ x ∈ p.heap.live, x.1 + x.2.toNat ≤ p.sz := by
  refine ⟨Heap.asked_iff nbytes, fun base sz mem tr p hbase hdata hsz hp hall x hx => ?_⟩
  have hbelow : Proc.Below base p := by
    refine hp.invariant (fun p c p' h hn hfits => h.step hbase hfits hn) ?_ hall
    exact ⟨.inl ⟨rfl, rfl, rfl⟩, hdata, hsz, by simp [Proc.boot, State.boot], by
      simp [Proc.boot, State.boot]⟩
  exact hbelow.live hx

theorem malloc_asks_enough_hundred :
    ∃ p, Proc.next 1024 (Proc.boot (fun _ => ⟨0, 0⟩) 4096) (.malloc 100 true) = some p ∧
      p.heap.live ≠ [] ∧ ∀ x ∈ p.heap.live, x.1 + x.2.toNat ≤ p.sz := by
  have hp : Path (Proc.next 1024) (Proc.boot (fun _ => ⟨0, 0⟩) 4096)
      (events (Proc.next 1024) (Proc.boot (fun _ => ⟨0, 0⟩) 4096) [.malloc 100 true])
      (final (Proc.next 1024) (Proc.boot (fun _ => ⟨0, 0⟩) 4096) [.malloc 100 true]) :=
    path_final (by decide +kernel)
  refine ⟨_, rfl, by decide +kernel, ?_⟩
  exact (malloc_asks_enough_iff 100).2 1024 4096 _ _ _ (by decide) (by decide) (by decide) hp
    (by decide +kernel)

/-- Asked for 2^31 bytes, sbrk gets a negative number. The header of the block is in a page that the
process has, so that malloc returns. -/
theorem malloc_asks_negative :
    (Heap.sbrkArg 2147483648).toInt = -2147483632 ∧
      ∃ p q, Proc.next 1024 (Proc.boot (fun _ => ⟨0, 0⟩) 4096) (.malloc 70000 true) = some p ∧
        p.sz = 74112 ∧ Proc.next 1024 p (.malloc 2147483648 true) = some q ∧
        q.sz = 74112 ∧ (74128, 2147483648) ∈ q.heap.live :=
  ⟨by decide, _, _, rfl, by decide +kernel, rfl, by decide +kernel, by decide +kernel⟩

end Xv6.Malloc
