import Mathlib.Data.List.FinRange
import Xv6.Param

namespace Xv6.Memory

def PGSIZE : Nat := 4096
def MAXVA : Nat := 2 ^ 38
def TRAMPOLINE : Nat := MAXVA - PGSIZE
def TRAPFRAME : Nat := TRAMPOLINE - PGSIZE
def KERNBASE : Nat := 0x80000000
def PHYSTOP : Nat := KERNBASE + 128 * 1024 * 1024

def PGROUNDUP (sz : Nat) : Nat := (sz + PGSIZE - 1) / PGSIZE * PGSIZE

abbrev Page := Nat

/-- The panics of kalloc.c, vm.c, exec.c and file.c that the modelled calls can meet. A null
pointer that boot code follows unchecked is `fault`. -/
inductive Panic
  | kfree | walk | mappagesNotAligned | mappagesSizeNotAligned | mappagesSize | mappagesRemap
  | uvmunmapNotAligned | uvmunmapWalk | uvmunmapNotMapped | uvmunmapNotALeaf
  | uvmcopyPteShouldExist | uvmcopyPageNotPresent | uvmclear | freewalkLeaf | loadseg
  | fileclose | filedup | fault
deriving DecidableEq, Repr

/-- Physical memory. `first` is the first whole page after the linker's symbol `end`, and
`trampoline` the page of the trampoline code; `deny` says which of the coming calls of kalloc
fail although the free list is not empty. -/
structure Mem where
  first : Page
  trampoline : Page
  freelist : List Page
  deny : List Bool

abbrev Kernel := StateT Mem (Except Panic)

def panic {α : Type} (e : Panic) : Kernel α := fun _ => .error e

def kalloc : Kernel (Option Page) := fun m =>
  if m.deny.headD false then .ok (none, { m with deny := m.deny.tail })
  else match m.freelist with
    | [] => .ok (none, { m with deny := m.deny.tail })
    | r :: next => .ok (some r, { m with deny := m.deny.tail, freelist := next })

def kfree (pa : Page) : Kernel Unit := fun m =>
  if pa < m.first ∨ PHYSTOP / PGSIZE ≤ pa then .error .kfree
  else .ok ((), { m with freelist := pa :: m.freelist })

/-- The permission bits of a valid entry; PTE_V is the entry being there. -/
structure Perm where
  r : Bool
  w : Bool
  x : Bool
  u : Bool
deriving DecidableEq, Repr

structure Pte where
  page : Page
  perm : Perm
deriving DecidableEq, Repr

/-- A page of 512 entries. A page-table page points to pages of the next level only, so a table of
tables of tables is an Sv39 page table in which no leaf stands above level 0. -/
structure Table (α : Type) where
  page : Page
  entry : Fin 512 → Option α

abbrev PageTable := Table (Table (Table Pte))

/-- The indices of one leaf, level 2 first. -/
abbrev Index := Fin 512 × Fin 512 × Fin 512

def PX (level va : Nat) : Fin 512 := ⟨va / 2 ^ (12 + 9 * level) % 512, Nat.mod_lt _ (by decide)⟩

def index (va : Nat) : Index := (PX 2 va, PX 1 va, PX 0 va)

/-- The number of the virtual page that a leaf maps. -/
def vpn (i : Index) : Nat := i.1 * 512 ^ 2 + i.2.1 * 512 + i.2.2

namespace Table

variable {α : Type}

def cleared (page : Page) : Table α := ⟨page, fun _ => none⟩

def set (t : Table α) (i : Fin 512) (v : Option α) : Table α :=
  { t with entry := Function.update t.entry i v }

end Table

namespace PageTable

def leaf (pt : PageTable) (i : Index) : Option Pte :=
  (pt.entry i.1).bind fun mid => (mid.entry i.2.1).bind fun low => low.entry i.2.2

/-- The store through the pointer that walk returned. -/
def setLeaf (pt : PageTable) (i : Index) (v : Option Pte) : PageTable :=
  match pt.entry i.1 with
  | none => pt
  | some mid => match mid.entry i.2.1 with
    | none => pt
    | some low => pt.set i.1 (some (mid.set i.2.1 (some (low.set i.2.2 v))))

end PageTable

/-- One level of walk: the table behind an entry, made when it is missing and `alloc` is set. -/
def descend {α : Type} (entry : Option (Table α)) (alloc : Bool) : Kernel (Option (Table α)) :=
  match entry with
  | some t => pure (some t)
  | none => if alloc then do return (← kalloc).map Table.cleared else pure none

/-- walk returns the place of the level-0 entry, and the table in which it may have installed
pages, also when it runs out of memory halfway. -/
def walk (pt : PageTable) (va : Nat) (alloc : Bool) : Kernel (PageTable × Option Index) := do
  if MAXVA ≤ va then panic .walk
  else
    match ← descend (pt.entry (PX 2 va)) alloc with
    | none => return (pt, none)
    | some mid =>
      match ← descend (mid.entry (PX 1 va)) alloc with
      | none => return (pt.set (PX 2 va) (some mid), none)
      | some low =>
        return (pt.set (PX 2 va) (some (mid.set (PX 1 va) (some low))), some (index va))

def mapLoop (pt : PageTable) (a : Nat) (pa : Page) (perm : Perm) : Nat → Kernel (PageTable × Bool)
  | 0 => return (pt, true)
  | n + 1 => do
    match ← walk pt a true with
    | (pt, none) => return (pt, false)
    | (pt, some i) =>
      if (pt.leaf i).isSome then panic .mappagesRemap
      else mapLoop (pt.setLeaf i (some ⟨pa, perm⟩)) (a + PGSIZE) (pa + 1) perm n

def mappages (pt : PageTable) (va size : Nat) (pa : Page) (perm : Perm) :
    Kernel (PageTable × Bool) :=
  if va % PGSIZE ≠ 0 then panic .mappagesNotAligned
  else if size % PGSIZE ≠ 0 then panic .mappagesSizeNotAligned
  else if size = 0 then panic .mappagesSize
  else mapLoop pt va pa perm (size / PGSIZE)

def unmapLoop (pt : PageTable) (a : Nat) (doFree : Bool) : Nat → Kernel PageTable
  | 0 => return pt
  | n + 1 => do
    match ← walk pt a false with
    | (_, none) => panic .uvmunmapWalk
    | (pt, some i) =>
      match pt.leaf i with
      | none => panic .uvmunmapNotMapped
      | some pte =>
        if pte.perm = ⟨false, false, false, false⟩ then panic .uvmunmapNotALeaf
        else do
          if doFree then kfree pte.page
          unmapLoop (pt.setLeaf i none) (a + PGSIZE) doFree n

def uvmunmap (pt : PageTable) (va npages : Nat) (doFree : Bool) : Kernel PageTable :=
  if va % PGSIZE ≠ 0 then panic .uvmunmapNotAligned
  else unmapLoop pt va doFree npages

def uvmcreate : Kernel (Option PageTable) := do
  return (← kalloc).map Table.cleared

/-- The page for initcode. The return value of mappages is ignored; a null page is written to. -/
def uvmfirst (pt : PageTable) : Kernel PageTable := do
  match ← kalloc with
  | none => panic .fault
  | some mem => return (← mappages pt 0 PGSIZE mem ⟨true, true, true, true⟩).1

def uvmdealloc (pt : PageTable) (oldsz newsz : Nat) : Kernel (PageTable × Nat) :=
  if newsz ≥ oldsz then pure (pt, oldsz)
  else if PGROUNDUP newsz < PGROUNDUP oldsz then do
    let npages := (PGROUNDUP oldsz - PGROUNDUP newsz) / PGSIZE
    return (← uvmunmap pt (PGROUNDUP newsz) npages true, newsz)
  else pure (pt, newsz)

/-- The loop of uvmalloc, `n` pages from `a` on; `oldsz` is already rounded up. -/
def allocLoop (oldsz : Nat) (perm : Perm) : PageTable → Nat → Nat → Kernel (PageTable × Bool)
  | pt, _, 0 => return (pt, true)
  | pt, a, n + 1 => do
    match ← kalloc with
    | none => return ((← uvmdealloc pt a oldsz).1, false)
    | some mem =>
      match ← mappages pt a PGSIZE mem perm with
      | (pt, false) => do
        kfree mem
        return ((← uvmdealloc pt a oldsz).1, false)
      | (pt, true) => allocLoop oldsz perm pt (a + PGSIZE) n

/-- uvmalloc with the permissions PTE_R, PTE_U and `xperm`; size 0 is failure. -/
def uvmalloc (pt : PageTable) (oldsz newsz : Nat) (w x : Bool) : Kernel (PageTable × Nat) :=
  if newsz < oldsz then pure (pt, oldsz)
  else do
    let a := PGROUNDUP oldsz
    match ← allocLoop a ⟨true, w, x, true⟩ pt a ((newsz - a + PGSIZE - 1) / PGSIZE) with
    | (pt, true) => return (pt, newsz)
    | (pt, false) => return (pt, 0)

/-- freewalk at level 0, where a valid entry is a leaf. -/
def freeLow (low : Table Pte) : Kernel Unit :=
  if (List.finRange 512).any fun i => (low.entry i).isSome then panic .freewalkLeaf
  else kfree low.page

/-- freewalk at a level above: the tables behind the entries in order, then the page itself. -/
def freeEntries {α : Type} (free : α → Kernel Unit) : List (Option α) → Kernel Unit
  | [] => pure ()
  | none :: es => freeEntries free es
  | some t :: es => do
    free t
    freeEntries free es

def freeTable {α : Type} (free : α → Kernel Unit) (t : Table α) : Kernel Unit := do
  freeEntries free ((List.finRange 512).map t.entry)
  kfree t.page

def freewalk : PageTable → Kernel Unit := freeTable (freeTable freeLow)

def uvmfree (pt : PageTable) (sz : Nat) : Kernel Unit := do
  let pt ← (if sz > 0 then uvmunmap pt 0 (PGROUNDUP sz / PGSIZE) true else pure pt)
  freewalk pt

def copyLoop (old : PageTable) : PageTable → Nat → Nat → Kernel (PageTable × Bool)
  | new, _, 0 => return (new, true)
  | new, a, n + 1 => do
    match ← walk old a false with
    | (_, none) => panic .uvmcopyPteShouldExist
    | (old', some i) =>
      match old'.leaf i with
      | none => panic .uvmcopyPageNotPresent
      | some pte =>
        match ← kalloc with
        | none => return (← uvmunmap new 0 (a / PGSIZE) true, false)
        | some mem =>
          match ← mappages new a PGSIZE mem pte.perm with
          | (new, false) => do
            kfree mem
            return (← uvmunmap new 0 (a / PGSIZE) true, false)
          | (new, true) => copyLoop old new (a + PGSIZE) n

def uvmcopy (old new : PageTable) (sz : Nat) : Kernel (PageTable × Bool) :=
  copyLoop old new 0 ((sz + PGSIZE - 1) / PGSIZE)

def uvmclear (pt : PageTable) (va : Nat) : Kernel PageTable := do
  match ← walk pt va false with
  | (_, none) => panic .uvmclear
  | (pt, some i) =>
    return pt.setLeaf i ((pt.leaf i).map fun pte => { pte with perm := { pte.perm with u := false } })

/-- walkaddr, for loadseg: whether a user page is mapped there. -/
def walkaddr (pt : PageTable) (va : Nat) : Kernel Bool := do
  if MAXVA ≤ va then return false
  else
    match ← walk pt va false with
    | (_, none) => return false
    | (pt, some i) => return ((pt.leaf i).map fun pte => pte.perm.u).getD false

end Xv6.Memory
