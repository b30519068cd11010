import Xv6.Memory.Process

namespace Xv6.Memory

/-- A file structure: `pipe` is the pipe's page and the field writable of an FD_PIPE file, and none
for FD_NONE. -/
structure File where
  ref : Nat
  pipe : Option (Page × Bool)

structure Pipe where
  readopen : Bool
  writeopen : Bool

/-- The kernel's memory with everything that points into it. `kernel` lists the pages that main
takes before the first process: the kernel's page table, the kernel stacks and the disk's queues.
`pipe` is what a page holds when it is a pipe. -/
structure World where
  mem : Mem
  kernel : List Page
  proc : Fin NPROC → Slot
  file : Fin NFILE → File
  pipe : Page → Pipe
  panicked : Option Panic

abbrev Sys := StateT World (Except Panic)

def onMem {α : Type} (k : Kernel α) : Sys α := fun w =>
  match k w.mem with
  | .ok (a, m) => .ok (a, { w with mem := m })
  | .error e => .error e

def setSlot (p : Fin NPROC) (s : Slot) : Sys Unit :=
  modify fun w => { w with proc := Function.update w.proc p s }

def setFile (f : Fin NFILE) (v : File) : Sys Unit :=
  modify fun w => { w with file := Function.update w.file f v }

def setPipe (pi : Page) (v : Pipe) : Sys Unit :=
  modify fun w => { w with pipe := Function.update w.pipe pi v }

def filealloc : Sys (Option (Fin NFILE)) := do
  let w ← get
  match (List.finRange NFILE).find? fun f => (w.file f).ref = 0 with
  | none => return none
  | some f => do
    setFile f { w.file f with ref := 1 }
    return some f

def filedup (f : Fin NFILE) : Sys Unit := do
  let w ← get
  if (w.file f).ref < 1 then throw .filedup
  else setFile f { w.file f with ref := (w.file f).ref + 1 }

def Pipe.close (p : Pipe) (writable : Bool) : Pipe :=
  if writable then { p with writeopen := false } else { p with readopen := false }

def pipeclose (pi : Page) (writable : Bool) : Sys Unit := do
  let w ← get
  let p := (w.pipe pi).close writable
  setPipe pi p
  if p.readopen = false ∧ p.writeopen = false then onMem (kfree pi) else pure ()

def fileclose (f : Fin NFILE) : Sys Unit := do
  let w ← get
  let ff := w.file f
  if ff.ref < 1 then throw .fileclose
  else if ff.ref - 1 > 0 then setFile f { ff with ref := ff.ref - 1 }
  else do
    setFile f ⟨0, none⟩
    match ff.pipe with
    | none => pure ()
    | some (pi, writable) => pipeclose pi writable

def pipealloc : Sys (Option (Fin NFILE × Fin NFILE)) := do
  match ← filealloc with
  | none => return none
  | some f0 =>
    match ← filealloc with
    | none => do
      fileclose f0
      return none
    | some f1 =>
      match ← onMem kalloc with
      | none => do
        fileclose f0
        fileclose f1
        return none
      | some pi => do
        let w ← get
        setPipe pi ⟨true, true⟩
        setFile f0 { w.file f0 with pipe := some (pi, false) }
        setFile f1 { w.file f1 with pipe := some (pi, true) }
        return some (f0, f1)

def setOfile (p : Fin NPROC) (fd : Fin NOFILE) (v : Option (Fin NFILE)) : Sys Unit := do
  let w ← get
  setSlot p { w.proc p with ofile := Function.update (w.proc p).ofile fd v }

def fdalloc (p : Fin NPROC) (f : Fin NFILE) : Sys (Option (Fin NOFILE)) := do
  let w ← get
  match (List.finRange NOFILE).find? fun fd => (w.proc p).ofile fd = none with
  | none => return none
  | some fd => do
    setOfile p fd (some f)
    return some fd

def sysPipe (p : Fin NPROC) (copyout : Bool) : Sys Unit := do
  match ← pipealloc with
  | none => pure ()
  | some (rf, wf) =>
    match ← fdalloc p rf with
    | none => do
      fileclose rf
      fileclose wf
    | some fd0 =>
      match ← fdalloc p wf with
      | none => do
        setOfile p fd0 none
        fileclose rf
        fileclose wf
      | some fd1 =>
        if copyout then pure ()
        else do
          setOfile p fd0 none
          setOfile p fd1 none
          fileclose rf
          fileclose wf

def sysClose (p : Fin NPROC) (fd : Fin NOFILE) : Sys Unit := do
  let w ← get
  match (w.proc p).ofile fd with
  | none => pure ()
  | some f => do
    setOfile p fd none
    fileclose f

def dupFiles (p np : Fin NPROC) : List (Fin NOFILE) → Sys Unit
  | [] => pure ()
  | fd :: fds => do
    let w ← get
    match (w.proc p).ofile fd with
    | none => pure ()
    | some f => do
      filedup f
      setOfile np fd (some f)
    dupFiles p np fds

def fork (p : Fin NPROC) : Sys Unit := do
  let w ← get
  match (List.finRange NPROC).find? fun np => (w.proc np).state = .unused with
  | none => pure ()
  | some np =>
    match ← onMem (forkSlot (w.proc p) (w.proc np)) with
    | (s, false) => setSlot np s
    | (s, true) => do
      setSlot np { s with state := .live, parent := some p }
      dupFiles p np (List.finRange NOFILE)

def closeFiles (p : Fin NPROC) : List (Fin NOFILE) → Sys Unit
  | [] => pure ()
  | fd :: fds => do
    sysClose p fd
    closeFiles p fds

def Slot.adopt (p initproc : Fin NPROC) (pp : Slot) : Slot :=
  if pp.parent = some p then { pp with parent := some initproc } else pp

def reparent (p initproc : Fin NPROC) : Sys Unit :=
  modify fun w => { w with proc := fun pp => (w.proc pp).adopt p initproc }

def exit (p : Fin NPROC) : Sys Unit := do
  closeFiles p (List.finRange NOFILE)
  reparent p 0
  let w ← get
  setSlot p { w.proc p with state := .zombie }

/-- wait by a process that has a zombie child; `copyout` is the store of the child's status. -/
def wait (p : Fin NPROC) (copyout : Bool) : Sys Unit := do
  let w ← get
  match (List.finRange NPROC).find? fun c =>
      (w.proc c).parent = some p ∧ (w.proc c).state = .zombie with
  | none => pure ()
  | some c =>
    if copyout then do
      let s ← onMem (freeproc (w.proc c))
      setSlot c s
    else pure ()

/-- userinit follows the slot that allocproc returns without a test. -/
def userinit : Sys Unit := do
  let w ← get
  match ← onMem (allocproc (w.proc 0)) with
  | (_, false) => throw .fault
  | (s, true) =>
    match s.pagetable with
    | none => throw .fault
    | some pt => do
      let pt ← onMem (uvmfirst pt)
      setSlot 0 { s with state := .live, pagetable := some pt, sz := PGSIZE }

/-- A part of a system call that changes one slot and the free list. -/
def onSlot (p : Fin NPROC) (k : Slot → Kernel Slot) : Sys Unit := do
  let w ← get
  let s ← onMem (k (w.proc p))
  setSlot p s

/-- What may happen next. exec is cut where it sleeps for the disk and where its loops turn; the
other calls are one step. -/
inductive Call
  | userinit
  | fork (p : Fin NPROC)
  | sbrk (p : Fin NPROC) (n : Int32)
  | pipe (p : Fin NPROC) (copyout : Bool)
  | close (p : Fin NPROC) (fd : Fin NOFILE)
  | exit (p : Fin NPROC)
  | wait (p : Fin NPROC) (copyout : Bool)
  | execArg (p : Fin NPROC) (fetchaddr fetchstr : Bool)
  | execBegin (p : Fin NPROC) (found : Bool)
  | execSegment (p : Fin NPROC) (ph : Option Proghdr) (read : Nat)
  | execCommit (p : Fin NPROC) (pushed : Bool)

/-- The argument strings copied so far; outside exec, those of a call that starts. -/
def Slot.args (s : Slot) : Option (List Page) :=
  match s.exec with
  | none => some []
  | some ⟨argv, none⟩ => some argv
  | some ⟨_, some _⟩ => none

/-- The argument strings and the half-built image of a process that loads a program. -/
def Slot.loading (s : Slot) : Option (List Page × PageTable × Nat) :=
  s.exec.bind fun img => img.table.map fun t => (img.argv, t)

def Slot.idle (s : Slot) : Bool := s.state = .live ∧ s.exec.isNone

def World.enabled (w : World) : Call → Bool
  | .userinit => ∀ p, (w.proc p).state = .unused
  | .fork p => (w.proc p).idle
  | .sbrk p _ => (w.proc p).idle
  | .pipe p _ => (w.proc p).idle
  | .close p _ => (w.proc p).idle
  | .exit p => (w.proc p).idle ∧ p ≠ 0
  | .wait p _ => (w.proc p).idle
  | .execArg p _ _ => (w.proc p).state = .live ∧ (w.proc p).args.isSome
  | .execBegin p _ => (w.proc p).state = .live ∧ (w.proc p).args.isSome
  | .execSegment p _ _ => (w.proc p).state = .live ∧ (w.proc p).loading.isSome
  | .execCommit p _ => (w.proc p).state = .live ∧ (w.proc p).loading.isSome

def Call.run : Call → Sys Unit
  | .userinit => Memory.userinit
  | .fork p => Memory.fork p
  | .sbrk p n => onSlot p fun s => growproc s n
  | .pipe p copyout => sysPipe p copyout
  | .close p fd => sysClose p fd
  | .exit p => Memory.exit p
  | .wait p copyout => Memory.wait p copyout
  | .execArg p fetchaddr fetchstr => onSlot p fun s =>
    match s.args with
    | some argv => Memory.execArg s argv fetchaddr fetchstr
    | none => panic .fault
  | .execBegin p found => onSlot p fun s =>
    match s.args with
    | some argv => Memory.execBegin s argv found
    | none => panic .fault
  | .execSegment p ph read => onSlot p fun s =>
    match s.loading with
    | some (argv, pt, sz) => Memory.execSegment s argv pt sz ph read
    | none => panic .fault
  | .execCommit p pushed => onSlot p fun s =>
    match s.loading with
    | some (argv, pt, sz) => Memory.execCommit s argv pt sz pushed
    | none => panic .fault

structure Label where
  call : Call
  deny : List Bool

def next (w : World) (l : Label) : Option World :=
  if w.panicked.isSome ∨ w.enabled l.call = false then none
  else match l.call.run { w with mem := { w.mem with deny := l.deny } } with
    | .ok (_, w') => some { w' with panicked := none }
    | .error e => some { w with panicked := some e }

/-- Memory after kinit, with the last page on top of the free list, and after main has taken its
first `taken` pages from it. -/
def boot (first trampoline : Page) (taken : Nat) : World where
  mem := ⟨first, trampoline, ((List.range' first (PHYSTOP / PGSIZE - first)).reverse).drop taken, []⟩
  kernel := ((List.range' first (PHYSTOP / PGSIZE - first)).reverse).take taken
  proc := fun _ => ⟨.unused, none, none, none, 0, fun _ => none, none⟩
  file := fun _ => ⟨0, none⟩
  pipe := fun _ => ⟨false, false⟩
  panicked := none

end Xv6.Memory
