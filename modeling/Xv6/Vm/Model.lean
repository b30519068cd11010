import Xv6.Framework.Bytes
import Xv6.Framework.Words
import Xv6.Memory.Process

/-! # kernel/vm.c over physical memory

Page tables as the hardware has them: words of physical memory, which also holds the pages that they
map. Addresses are those of the kernel's direct map.
-/

namespace Xv6.Vm

open Xv6.Framework
open Xv6.Memory (Panic Mem)

export Xv6.Memory (Page PGSIZE MAXVA TRAMPOLINE TRAPFRAME PGROUNDUP)

/-- Physical memory: the free list and all bytes. -/
structure Machine where
  mem : Mem
  ram : Bytes

abbrev Kernel := StateT Machine (Except Panic)

def panic {α : Type} (e : Panic) : Kernel α := fun _ => .error e

def load64 (a : Nat) : Kernel UInt64 := fun r => .ok (r.ram.u64 a, r)

def store64 (a : Nat) (v : UInt64) : Kernel Unit := fun r => .ok ((), { r with ram := r.ram.setU64 a v })

def memset (dst : Nat) (c : UInt8) (n : Nat) : Kernel Unit := fun r =>
  .ok ((), { r with ram := r.ram.copy dst n fun _ => c })

/-- memmove to an address, from bytes that the move does not overlap. -/
def memmove (dst : Nat) (src : Bytes) (n : Nat) : Kernel Unit := fun r =>
  .ok ((), { r with ram := r.ram.copy dst n src })

/-- The page comes filled with junk. -/
def kalloc : Kernel (Option Nat) := fun r =>
  match Memory.kalloc r.mem with
  | .ok (none, m) => .ok (none, { r with mem := m })
  | .ok (some p, m) => .ok (some (p * PGSIZE), ⟨m, r.ram.copy (p * PGSIZE) PGSIZE fun _ => 5⟩)
  | .error e => .error e

/-- The first word of a free page, which links it into the list, is not told from the junk. -/
def kfree (pa : Nat) : Kernel Unit := fun r =>
  if pa % PGSIZE ≠ 0 then .error .kfree
  else match Memory.kfree (pa / PGSIZE) r.mem with
    | .ok ((), m) => .ok ((), ⟨m, r.ram.copy pa PGSIZE fun _ => 1⟩)
    | .error e => .error e

/-! ## Entries, by kernel/riscv.h -/

def PTE_V : UInt64 := (1 : UInt64) <<< 0
def PTE_R : UInt64 := (1 : UInt64) <<< 1
def PTE_W : UInt64 := (1 : UInt64) <<< 2
def PTE_X : UInt64 := (1 : UInt64) <<< 3
def PTE_U : UInt64 := (1 : UInt64) <<< 4

def PA2PTE (pa : Nat) : UInt64 := (UInt64.ofNat pa >>> 12) <<< 10

def PTE2PA (pte : UInt64) : Nat := ((pte >>> 10) <<< 12).toNat

def PTE_FLAGS (pte : UInt64) : UInt64 := pte &&& 0x3FF

def PGROUNDDOWN (a : UInt64) : UInt64 := a &&& ~~~0xFFF

/-- The address of an entry of a page-table page. -/
def entryAddr (pagetable : Nat) (i : Fin 512) : Nat := pagetable + 8 * i

/-- One turn of the loop of walk. -/
def descend (pagetable : Nat) (i : Fin 512) (alloc : Bool) : Kernel (Option Nat) := do
  let pte ← load64 (entryAddr pagetable i)
  if pte &&& PTE_V ≠ 0 then return some (PTE2PA pte)
  else if alloc then do
    match ← kalloc with
    | none => return none
    | some page => do
      memset page 0 PGSIZE
      store64 (entryAddr pagetable i) (PA2PTE page ||| PTE_V)
      return some page
  else return none

/-- The address of the entry for a virtual address. -/
def walk (pagetable va : Nat) (alloc : Bool) : Kernel (Option Nat) :=
  if MAXVA ≤ va then panic .walk
  else do
    match ← descend pagetable (Memory.PX 2 va) alloc with
    | none => return none
    | some mid =>
      match ← descend mid (Memory.PX 1 va) alloc with
      | none => return none
      | some low => return some (entryAddr low (Memory.PX 0 va))

/-- The physical address of a user page; 0 if there is none. -/
def walkaddr (pagetable va : Nat) : Kernel Nat :=
  if MAXVA ≤ va then return 0
  else do
    match ← walk pagetable va false with
    | none => return 0
    | some a => do
      let pte ← load64 a
      if pte &&& PTE_V = 0 then return 0
      else if pte &&& PTE_U = 0 then return 0
      else return PTE2PA pte

/-- The loop of mappages, which ends after `size / PGSIZE` turns; false is the return of -1. -/
def mapLoop (pagetable a pa : Nat) (perm : UInt64) : Nat → Kernel Bool
  | 0 => return true
  | n + 1 => do
    match ← walk pagetable a true with
    | none => return false
    | some pte => do
      if (← load64 pte) &&& PTE_V ≠ 0 then panic .mappagesRemap
      else do
        store64 pte (PA2PTE pa ||| perm ||| PTE_V)
        mapLoop pagetable (a + PGSIZE) (pa + PGSIZE) perm n

def mappages (pagetable va size pa : Nat) (perm : UInt64) : Kernel Bool :=
  if va % PGSIZE ≠ 0 then panic .mappagesNotAligned
  else if size % PGSIZE ≠ 0 then panic .mappagesSizeNotAligned
  else if size = 0 then panic .mappagesSize
  else mapLoop pagetable va pa perm (size / PGSIZE)

def unmapLoop (pagetable a : Nat) (doFree : Bool) : Nat → Kernel Unit
  | 0 => return ()
  | n + 1 => do
    match ← walk pagetable a false with
    | none => panic .uvmunmapWalk
    | some pte => do
      let v ← load64 pte
      if v &&& PTE_V = 0 then panic .uvmunmapNotMapped
      else if PTE_FLAGS v = PTE_V then panic .uvmunmapNotALeaf
      else do
        if doFree then kfree (PTE2PA v)
        store64 pte 0
        unmapLoop pagetable (a + PGSIZE) doFree n

def uvmunmap (pagetable va npages : Nat) (doFree : Bool) : Kernel Unit :=
  if va % PGSIZE ≠ 0 then panic .uvmunmapNotAligned
  else unmapLoop pagetable va doFree npages

def uvmdealloc (pagetable oldsz newsz : Nat) : Kernel Nat :=
  if newsz ≥ oldsz then return oldsz
  else if PGROUNDUP newsz < PGROUNDUP oldsz then do
    let npages := (PGROUNDUP oldsz - PGROUNDUP newsz) / PGSIZE
    uvmunmap pagetable (PGROUNDUP newsz) npages true
    return newsz
  else return newsz

/-- The loop of uvmalloc, `n` pages from `a` on; `oldsz` is already rounded up. -/
def allocLoop (pagetable oldsz : Nat) (perm : UInt64) : Nat → Nat → Kernel Bool
  | _, 0 => return true
  | a, n + 1 => do
    match ← kalloc with
    | none => do
      let _ ← uvmdealloc pagetable a oldsz
      return false
    | some mem => do
      memset mem 0 PGSIZE
      if ← mappages pagetable a PGSIZE mem perm then allocLoop pagetable oldsz perm (a + PGSIZE) n
      else do
        kfree mem
        let _ ← uvmdealloc pagetable a oldsz
        return false

/-- Size 0 is failure. -/
def uvmalloc (pagetable oldsz newsz : Nat) (xperm : UInt64) : Kernel Nat :=
  if newsz < oldsz then return oldsz
  else do
    let a := PGROUNDUP oldsz
    if ← allocLoop pagetable a (PTE_R ||| PTE_U ||| xperm) a ((newsz - a + PGSIZE - 1) / PGSIZE) then
      return newsz
    else return 0

/-- The loop of uvmcopy from address `i` on, `n` pages to go. -/
def copyLoop (old new : Nat) : Nat → Nat → Kernel Bool
  | _, 0 => return true
  | i, n + 1 => do
    match ← walk old i false with
    | none => panic .uvmcopyPteShouldExist
    | some a => do
      let pte ← load64 a
      if pte &&& PTE_V = 0 then panic .uvmcopyPageNotPresent
      else do
        match ← kalloc with
        | none => do
          uvmunmap new 0 (i / PGSIZE) true
          return false
        | some mem => do
          let r ← get
          memmove mem (fun k => r.ram (PTE2PA pte + k)) PGSIZE
          if ← mappages new i PGSIZE mem (PTE_FLAGS pte) then copyLoop old new (i + PGSIZE) n
          else do
            kfree mem
            uvmunmap new 0 (i / PGSIZE) true
            return false

def uvmcopy (old new sz : Nat) : Kernel Bool := copyLoop old new 0 ((sz + PGSIZE - 1) / PGSIZE)

/-! ## Copies between kernel and user -/

/-- The bytes that one turn of the copy loops moves: up to the end of the page, or all that is left. -/
def chunk (va len : UInt64) : UInt64 :=
  let n := 4096 - (va - PGROUNDDOWN va)
  if n > len then len else n

theorem PGROUNDDOWN_toNat (a : UInt64) : (PGROUNDDOWN a).toNat = a.toNat / 4096 * 4096 :=
  Words.toNat_and_not_mask (k := 12) a (by decide)

theorem offset_toNat (va : UInt64) : (va - PGROUNDDOWN va).toNat = va.toNat % 4096 := by
  have hle : PGROUNDDOWN va ≤ va := by
    rw [UInt64.le_iff_toNat_le, PGROUNDDOWN_toNat]
    omega
  rw [UInt64.toNat_sub_of_le _ _ hle, PGROUNDDOWN_toNat]
  omega

theorem chunk_toNat (va len : UInt64) :
    (chunk va len).toNat = min (4096 - va.toNat % 4096) len.toNat := by
  have hle : va - PGROUNDDOWN va ≤ 4096 := by
    rw [UInt64.le_iff_toNat_le, offset_toNat]
    show _ ≤ 4096
    omega
  have hn : (4096 - (va - PGROUNDDOWN va)).toNat = 4096 - va.toNat % 4096 := by
    rw [UInt64.toNat_sub_of_le _ _ hle, offset_toNat]
    rfl
  simp only [chunk]
  split
  · rename_i hlt
    rw [gt_iff_lt, UInt64.lt_iff_toNat_lt] at hlt
    omega
  · rename_i hlt
    rw [gt_iff_lt, UInt64.lt_iff_toNat_lt] at hlt
    omega

theorem chunk_le (va len : UInt64) : chunk va len ≤ len := by
  rw [UInt64.le_iff_toNat_le, chunk_toNat]
  exact Nat.min_le_right _ _

theorem sub_chunk_lt (va : UInt64) {len : UInt64} (h : len ≠ 0) :
    (len - chunk va len).toNat < len.toNat := by
  have hpos : len.toNat ≠ 0 := fun hz => h (UInt64.toNat.inj hz)
  rw [UInt64.toNat_sub_of_le _ _ (chunk_le va len), chunk_toNat]
  omega

/-- The bytes from `src` on go to user memory; false is the return of -1. -/
def copyout (pagetable : Nat) (dstva : UInt64) (src : Bytes) (len : UInt64) : Kernel Bool :=
  if _h : len = 0 then return true
  else
    let va0 := PGROUNDDOWN dstva
    if MAXVA ≤ va0.toNat then return false
    else do
      match ← walk pagetable va0.toNat false with
      | none => return false
      | some a => do
        let pte ← load64 a
        if pte &&& PTE_V = 0 ∨ pte &&& PTE_U = 0 ∨ pte &&& PTE_W = 0 then return false
        else do
          let n := chunk dstva len
          memmove (PTE2PA pte + (dstva - va0).toNat) src n.toNat
          copyout pagetable (va0 + 4096) (fun k => src (n.toNat + k)) (len - n)
termination_by len.toNat
decreasing_by exact sub_chunk_lt dstva _h

/-- copyin, with the bytes that it has stored from `dst` on. -/
def copyin (pagetable : Nat) (srcva len : UInt64) : Kernel (List UInt8 × Bool) :=
  if _h : len = 0 then return ([], true)
  else do
    let va0 := PGROUNDDOWN srcva
    let pa0 ← walkaddr pagetable va0.toNat
    if pa0 = 0 then return ([], false)
    else do
      let n := chunk srcva len
      let r ← get
      let (rest, ok) ← copyin pagetable (va0 + 4096) (len - n)
      return (r.ram.slice (pa0 + (srcva - va0).toNat) n.toNat ++ rest, ok)
termination_by len.toNat
decreasing_by exact sub_chunk_lt srcva _h

/-- The inner loop of copyinstr, `n` bytes from `p` on: the bytes stored, and whether the last one is
the NUL. -/
def scan (ram : Bytes) (p : Nat) : Nat → List UInt8 × Bool
  | 0 => ([], false)
  | n + 1 =>
    if ram p = 0 then ([0], true)
    else
      let (rest, got) := scan ram (p + 1) n
      (ram p :: rest, got)

/-- copyinstr, with the bytes that it has stored from `dst` on. -/
def copyinstr (pagetable : Nat) (srcva max : UInt64) : Kernel (List UInt8 × Bool) :=
  if _h : max = 0 then return ([], false)
  else do
    let va0 := PGROUNDDOWN srcva
    let pa0 ← walkaddr pagetable va0.toNat
    if pa0 = 0 then return ([], false)
    else do
      let n := chunk srcva max
      let r ← get
      let s := scan r.ram (pa0 + (srcva - va0).toNat) n.toNat
      if s.2 then return s
      else do
        let (rest, ok) ← copyinstr pagetable (va0 + 4096) (max - n)
        return (s.1 ++ rest, ok)
termination_by max.toNat
decreasing_by exact sub_chunk_lt srcva _h

/-! ## Address spaces of processes -/

/-- p->sz after growproc, or none for -1. The sum of a size and a negative int wraps. -/
def growproc (pagetable sz : Nat) (n : Int32) : Kernel (Option Nat) :=
  if 0 < n.toInt then do
    let sz' ← uvmalloc pagetable sz (sz + n.toInt.toNat) PTE_W
    if sz' = 0 then return none else return some sz'
  else if n.toInt < 0 then do
    return some (← uvmdealloc pagetable sz (((sz : Int) + n.toInt) % 2 ^ 64).toNat)
  else return some sz

/-- The value that sys_sbrk returns and p->sz afterwards. -/
def sysSbrk (pagetable sz : Nat) (n : Int32) : Kernel (Int × Nat) := do
  match ← growproc pagetable sz n with
  | none => return (-1, sz)
  | some sz' => return (sz, sz')

end Xv6.Vm
