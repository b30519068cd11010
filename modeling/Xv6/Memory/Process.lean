import Xv6.Framework.Transition
import Xv6.Memory.PageTable

namespace Xv6.Memory

def NFILE : Nat := 100
def MAXARG : Nat := 32
def USERSTACK : Nat := 1

/-- The states of a process slot between system calls. -/
inductive ProcState
  | unused | live | zombie
deriving DecidableEq, Repr

/-- What a process that is inside exec holds beside its old image: the argument strings that
sys_exec has copied, and then the page table it is building, with the size reached. -/
structure Image where
  argv : List Page
  table : Option (PageTable × Nat)

structure Slot where
  state : ProcState
  parent : Option (Fin NPROC)
  trapframe : Option Page
  pagetable : Option PageTable
  sz : Nat
  ofile : Fin NOFILE → Option (Fin NFILE)
  exec : Option Image

/-- The pages that vm.c maps for the kernel in every page table. -/
def procPagetable (trapframe : Page) : Kernel (Option PageTable) := do
  let m ← get
  match ← uvmcreate with
  | none => return none
  | some pt =>
    match ← mappages pt TRAMPOLINE PGSIZE m.trampoline ⟨true, false, true, false⟩ with
    | (pt, false) => do
      uvmfree pt 0
      return none
    | (pt, true) =>
      match ← mappages pt TRAPFRAME PGSIZE trapframe ⟨true, true, false, false⟩ with
      | (pt, false) => do
        let pt ← uvmunmap pt TRAMPOLINE 1 false
        uvmfree pt 0
        return none
      | (pt, true) => return some pt

def procFreepagetable (pt : PageTable) (sz : Nat) : Kernel Unit := do
  let pt ← uvmunmap pt TRAMPOLINE 1 false
  let pt ← uvmunmap pt TRAPFRAME 1 false
  uvmfree pt sz

def Slot.freed (p : Slot) : Slot :=
  { p with state := .unused, parent := none, trapframe := none, pagetable := none, sz := 0 }

def freeproc (p : Slot) : Kernel Slot := do
  match p.trapframe with
  | some tf => kfree tf
  | none => pure ()
  match p.pagetable with
  | some pt => procFreepagetable pt p.sz
  | none => pure ()
  return p.freed

/-- allocproc on the unused slot that it found; false when it returns 0. -/
def allocproc (p : Slot) : Kernel (Slot × Bool) := do
  match ← kalloc with
  | none => return (← freeproc { p with trapframe := none }, false)
  | some tf =>
    match ← procPagetable tf with
    | none => return (← freeproc { p with trapframe := some tf, pagetable := none }, false)
    | some pt => return ({ p with trapframe := some tf, pagetable := some pt }, true)

/-- The memory side of fork: the child's slot, or none when fork fails, with the slot freed. -/
def forkSlot (p : Slot) (np : Slot) : Kernel (Slot × Bool) := do
  match ← allocproc np with
  | (np, false) => return (np, false)
  | (np, true) =>
    match p.pagetable, np.pagetable with
    | some old, some new =>
      match ← uvmcopy old new p.sz with
      | (new, false) => return (← freeproc { np with pagetable := some new }, false)
      | (new, true) => return ({ np with pagetable := some new, sz := p.sz }, true)
    | _, _ => panic .fault

def growproc (p : Slot) (n : Int32) : Kernel Slot :=
  match p.pagetable with
  | none => panic .fault
  | some pt =>
    if 0 < n.toInt then do
      match ← uvmalloc pt p.sz (p.sz + n.toInt.toNat) true false with
      | (pt, 0) => return { p with pagetable := some pt }
      | (pt, sz) => return { p with pagetable := some pt, sz := sz }
    else if n.toInt < 0 then do
      let (pt, sz) ← uvmdealloc pt p.sz (((p.sz : Int) + n.toInt) % 2 ^ 64).toNat
      return { p with pagetable := some pt, sz := sz }
    else return p

structure Proghdr where
  load : Bool
  vaddr : UInt64
  filesz : UInt64
  memsz : UInt64
  x : Bool
  w : Bool

def kfreeAll : List Page → Kernel Unit
  | [] => pure ()
  | a :: as => do
    kfree a
    kfreeAll as

/-- The label bad of exec and the loop with which sys_exec gives back its argument strings. -/
def execBad (p : Slot) (img : Image) : Kernel Slot := do
  match img.table with
  | some (pt, sz) => procFreepagetable pt sz
  | none => pure ()
  kfreeAll img.argv
  return { p with exec := none }

def execArg (p : Slot) (argv : List Page) (fetchaddr fetchstr : Bool) : Kernel Slot :=
  if MAXARG ≤ argv.length then execBad p ⟨argv, none⟩
  else if fetchaddr = false then execBad p ⟨argv, none⟩
  else do
    match ← kalloc with
    | none => execBad p ⟨argv, none⟩
    | some a =>
      if fetchstr then return { p with exec := some ⟨argv ++ [a], none⟩ }
      else execBad p ⟨argv ++ [a], none⟩

/-- exec up to its new page table; `found` says that the file is there and has an ELF header. -/
def execBegin (p : Slot) (argv : List Page) (found : Bool) : Kernel Slot :=
  match p.trapframe with
  | none => panic .fault
  | some tf =>
    if found then do
      match ← procPagetable tf with
      | none => execBad p ⟨argv, none⟩
      | some pt => return { p with exec := some ⟨argv, some (pt, 0)⟩ }
    else execBad p ⟨argv, none⟩

/-- The loop of loadseg over `n` pages; `read` says for how many of them readi succeeds. -/
def loadseg (pt : PageTable) (a : Nat) : Nat → Nat → Kernel Bool
  | 0, _ => return true
  | n + 1, read => do
    if ← walkaddr pt a then
      match read with
      | 0 => return false
      | read + 1 => loadseg pt (a + PGSIZE) n read
    else panic .loadseg

/-- One turn of the loop over the program headers; none is a header that readi cannot read. -/
def execSegment (p : Slot) (argv : List Page) (pt : PageTable) (sz : Nat) (ph : Option Proghdr)
    (read : Nat) : Kernel Slot :=
  match ph with
  | none => execBad p ⟨argv, some (pt, sz)⟩
  | some ph =>
    if ph.load = false then return p
    else if ph.memsz < ph.filesz then execBad p ⟨argv, some (pt, sz)⟩
    else if ph.vaddr + ph.memsz < ph.vaddr then execBad p ⟨argv, some (pt, sz)⟩
    else if ph.vaddr.toNat % PGSIZE ≠ 0 then execBad p ⟨argv, some (pt, sz)⟩
    else do
      match ← uvmalloc pt sz (ph.vaddr + ph.memsz).toNat ph.w ph.x with
      | (pt, 0) => execBad p ⟨argv, some (pt, sz)⟩
      | (pt, sz) => do
        let filesz := ph.filesz.toUInt32.toNat
        if ← loadseg pt ph.vaddr.toNat ((filesz + PGSIZE - 1) / PGSIZE) read then
          return { p with exec := some ⟨argv, some (pt, sz)⟩ }
        else execBad p ⟨argv, some (pt, sz)⟩

/-- exec from the stack on; `pushed` says that the argument strings fit on it. -/
def execCommit (p : Slot) (argv : List Page) (pt : PageTable) (sz : Nat) (pushed : Bool) :
    Kernel Slot := do
  let sz := PGROUNDUP sz
  match ← uvmalloc pt sz (sz + (USERSTACK + 1) * PGSIZE) true false with
  | (pt, 0) => execBad p ⟨argv, some (pt, sz)⟩
  | (pt, sz) => do
    let pt ← uvmclear pt (sz - (USERSTACK + 1) * PGSIZE)
    if pushed then
      match p.pagetable with
      | none => panic .fault
      | some old => do
        procFreepagetable old p.sz
        kfreeAll argv
        return { p with pagetable := some pt, sz := sz, exec := none }
    else execBad p ⟨argv, some (pt, sz)⟩

end Xv6.Memory
