import Mathlib.Algebra.Order.Ring.Nat
import Xv6.Framework.Transition

namespace Xv6.Malloc

open Xv6.Framework

/-- union header; pointers are byte addresses. -/
structure Header where
  ptr : Nat
  size : UInt32

def HEADER : Nat := 16

/-- The headers in memory and freep, which is 0 before the first call. -/
structure Heap where
  mem : Nat → Header
  freep : Nat

namespace Heap

def setPtr (h : Heap) (a p : Nat) : Heap :=
  { h with mem := Function.update h.mem a { h.mem a with ptr := p } }

def setSize (h : Heap) (a : Nat) (n : UInt32) : Heap :=
  { h with mem := Function.update h.mem a { h.mem a with size := n } }

def stop (h : Heap) (p : Nat) : Nat := p + HEADER * (h.mem p).size.toNat

def freeLoop (h : Heap) (bp : Nat) : Nat → Nat → Option Nat
  | 0, _ => none
  | fuel + 1, p =>
    if p < bp ∧ bp < (h.mem p).ptr then some p
    else if (h.mem p).ptr ≤ p ∧ (p < bp ∨ bp < (h.mem p).ptr) then some p
    else freeLoop h bp fuel (h.mem p).ptr

/-- The rest of free: the block goes behind `p`, and into its neighbours where they touch. -/
def insert (h : Heap) (bp p : Nat) : Heap :=
  let q := (h.mem p).ptr
  let h :=
    if h.stop bp = q then
      (h.setSize bp ((h.mem bp).size + (h.mem q).size)).setPtr bp (h.mem q).ptr
    else h.setPtr bp q
  let h :=
    if h.stop p = bp then
      (h.setSize p ((h.mem p).size + (h.mem bp).size)).setPtr p (h.mem bp).ptr
    else h.setPtr p bp
  { h with freep := p }

def free (h : Heap) (fuel ap : Nat) : Option Heap :=
  (h.freeLoop (ap - HEADER) fuel h.freep).map (h.insert (ap - HEADER))

/-- The units that morecore asks sbrk for. -/
def coreUnits (nu : UInt32) : UInt32 := if nu < 4096 then 4096 else nu

/-- `region` is what sbrk returns, if it does not fail. -/
def morecore (h : Heap) (fuel : Nat) (nu : UInt32) (region : Option Nat) : Option (Heap × Nat) :=
  match region with
  | none => some (h, 0)
  | some hp =>
    ((h.setSize hp (coreUnits nu)).free fuel (hp + HEADER)).map fun h => (h, h.freep)

def units (nbytes : UInt32) : UInt32 := UInt32.ofNat ((nbytes.toNat + HEADER - 1) / HEADER + 1)

/-- The allocation from a block that is large enough: all of it, or its tail. -/
def carve (h : Heap) (nunits : UInt32) (prevp p : Nat) : Heap × Nat :=
  if (h.mem p).size = nunits then
    ({ h.setPtr prevp (h.mem p).ptr with freep := prevp }, p + HEADER)
  else
    let h := h.setSize p ((h.mem p).size - nunits)
    let p := h.stop p
    let h := h.setSize p nunits
    ({ h with freep := prevp }, p + HEADER)

/-- The for loop of malloc. `region` is the answer of sbrk until it is used; the result has the pointer
and the answer that is left. -/
def mallocLoop (nunits : UInt32) :
    Nat → Heap → Nat → Nat → Option (Option Nat) → Option (Heap × Nat × Option (Option Nat))
  | 0, _, _, _, _ => none
  | fuel + 1, h, prevp, p, region =>
    if nunits ≤ (h.mem p).size then
      let (h, ap) := h.carve nunits prevp p
      some (h, ap, region)
    else if p = h.freep then
      match region with
      | none => none
      | some r =>
        match h.morecore fuel nunits r with
        | none => none
        | some (h, p) =>
          if p = 0 then some (h, 0, none) else mallocLoop nunits fuel h p (h.mem p).ptr none
    else mallocLoop nunits fuel h p (h.mem p).ptr region

def start (h : Heap) (base : Nat) : Heap :=
  if h.freep = 0 then { mem := Function.update h.mem base ⟨base, 0⟩, freep := base } else h

def malloc (h : Heap) (base fuel : Nat) (nbytes : UInt32) (region : Option Nat) :
    Option (Heap × Nat × Option (Option Nat)) :=
  let h := h.start base
  mallocLoop (units nbytes) fuel h h.freep (h.mem h.freep).ptr (some region)

end Heap

structure Block where
  addr : Nat
  units : Nat
  deriving DecidableEq

namespace Block

def stop (b : Block) : Nat := b.addr + HEADER * b.units

def has (b : Block) (x : Nat) : Prop := b.addr ≤ x ∧ x < b.stop

def Apart (b c : Block) : Prop := b.stop ≤ c.addr ∨ c.stop ≤ b.addr

instance (b c : Block) : Decidable (Apart b c) := inferInstanceAs (Decidable (_ ∨ _))

def total (l : List Block) : Nat := (l.map units).sum

end Block

/-- A program and its heap: the pointers that malloc returned and free did not get, with the bytes
asked for, and what sbrk gave. -/
structure State where
  heap : Heap
  live : List (Nat × UInt32)
  got : List Block

/-- A call of malloc with the answer of sbrk, should it be asked; a call of free. -/
inductive Call
  | malloc (nbytes : UInt32) (region : Option Nat)
  | free (ap : Nat)

namespace State

def boot (mem : Nat → Header) : State := ⟨⟨mem, 0⟩, [], []⟩

def region (nbytes : UInt32) (a : Nat) : Block := ⟨a, (Heap.coreUnits (Heap.units nbytes)).toNat⟩

/-- The request fits the int that sbrk takes, and the region is above the base and fresh. -/
def Sane (base : Nat) (s : State) : Call → Prop
  | .malloc nbytes r =>
    HEADER * (Heap.coreUnits (Heap.units nbytes)).toNat < 2 ^ 31 ∧
      ∀ a ∈ r, base + HEADER ≤ a ∧ ∀ g ∈ s.got, (region nbytes a).Apart g
  | .free ap => ap ∈ s.live.map Prod.fst

instance (base : Nat) (s : State) : (c : Call) → Decidable (s.Sane base c)
  | .malloc _ _ => inferInstanceAs (Decidable (_ ∧ _))
  | .free _ => inferInstanceAs (Decidable (_ ∈ _))

/-- More rounds than the loops can take: no list has more blocks than there are units. -/
def rounds (s : State) : Nat := 2 * Block.total s.got + 8

/-- The program after malloc: it has the pointer, unless that is 0, and the region that was used. -/
def returned (s : State) (nbytes : UInt32) (r : Option Nat) :
    Heap × Nat × Option (Option Nat) → State
  | (h, ap, left) =>
    { heap := h
      live := if ap = 0 then s.live else (ap, nbytes) :: s.live
      got := match left, r with
        | none, some a => region nbytes a :: s.got
        | _, _ => s.got }

def next (base : Nat) (s : State) (c : Call) : Option State :=
  if s.Sane base c then
    match c with
    | .malloc nbytes r =>
      (s.heap.malloc base s.rounds nbytes r).map (s.returned nbytes r)
    | .free ap =>
      (s.heap.free s.rounds ap).map fun h =>
        { s with heap := h, live := s.live.eraseP (·.1 = ap) }
  else none

end State

end Xv6.Malloc
