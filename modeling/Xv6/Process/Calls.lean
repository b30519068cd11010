import Xv6.Process.Slot
import Xv6.Framework.Transition

namespace Xv6.Process.Calls

open Xv6.Framework

/-- The four counters behind the benchmark report. -/
structure Bench where
  globalTurnaroundTime : Nat
  globalWaitingTime : Nat
  totalBenchmarkProcesses : Int
  completedBenchmarkProcesses : Int

def Bench.zero : Bench := ⟨0, 0, 0, 0⟩

/-- An accounted exit: the fork that made the process, its turnaround and its waiting time. -/
structure Entry where
  ident : Nat
  turnaround : Nat
  waiting : Nat

/-- What exit prints, with the forks counted and the exits accounted for at that moment. -/
structure Report where
  mode : Int
  avgTurnaround : Int
  avgWaiting : Int
  counted : List Nat
  done : List Entry

/-- History variables; the code never reads them. Forks are numbered, ident is the number of
the occupant of a slot, counted and done grow with the two benchmark counters and are cleared
with them. -/
structure Ledger where
  born : Nat
  ident : ProcId → Nat
  counted : List Nat
  done : List Entry

structure Kernel where
  procs : ProcId → Proc
  nextpid : Int
  ticks : Nat
  schedMode : Int
  bench : Bench
  console : List Report
  ledger : Ledger

def Kernel.set (k : Kernel) (i : ProcId) (p : Proc) : Kernel :=
  { k with procs := Function.update k.procs i p }

/-- Which of fork's memory allocations succeed. -/
structure Mem where
  trapframe : Bool
  pagetable : Bool
  uvmcopy : Bool

def Mem.ok : Mem := ⟨true, true, true⟩

def firstUnused (procs : ProcId → Proc) : Option ProcId :=
  (List.finRange NPROC).find? fun i => (procs i).state = .unused

def allocproc (k : Kernel) (m : Mem) : Kernel × Option ProcId :=
  match firstUnused k.procs with
  | none => (k, none)
  | some i =>
    let p := (k.procs i).claim k.nextpid
    let k := { k with nextpid := int32 (k.nextpid + 1) }
    if m.trapframe && m.pagetable then (k.set i (p.stamp k.ticks), some i)
    else (k.set i (p.freeproc k.ticks), none)

/-- total_benchmark_processes++ and its history. -/
def Kernel.countFork (k : Kernel) : Kernel :=
  { k with
    bench := { k.bench with
      totalBenchmarkProcesses := int32 (k.bench.totalBenchmarkProcesses + 1) }
    ledger := { k.ledger with counted := k.ledger.counted ++ [k.ledger.born] } }

/-- A new occupant of slot i gets the next number. -/
def Kernel.bear (k : Kernel) (i : ProcId) : Kernel :=
  { k with ledger := { k.ledger with
      born := k.ledger.born + 1
      ident := Function.update k.ledger.ident i k.ledger.born } }

def fork (k : Kernel) (q : ProcId) (m : Mem) : Kernel :=
  match allocproc k m with
  | (k, none) => k
  | (k, some i) =>
    if m.uvmcopy then
      let np := { (k.procs i).copyFrom (k.procs q) with parent := some q, state := .runnable }
      let k := if (k.procs q).runsSchedbench then k.countFork else k
      (k.bear i).set i np
    else k.set i ((k.procs i).freeproc k.ticks)

def wakeup (procs : ProcId → Proc) (ch : Chan) : ProcId → Proc := fun i => (procs i).wakeup ch

/-- Pass the children of p to init, which is woken if there are any. -/
def reparent (procs : ProcId → Proc) (p : ProcId) : ProcId → Proc :=
  if ∃ i, (procs i).parent = some p then wakeup (fun i => (procs i).adopt p) (.proc initproc)
  else procs

def Kernel.reset (k : Kernel) : Kernel :=
  { k with bench := Bench.zero, ledger := { k.ledger with counted := [], done := [] } }

/-- A global uint64 divided by the int number of processes, stored in an int. -/
def average (sum : Nat) (n : Int) : Int := int32 ((sum / (n % 2 ^ 64).toNat : Nat) : Int)

/-- The benchmark part of exit, for the process p in slot q. -/
def account (k : Kernel) (q : ProcId) (p : Proc) : Kernel :=
  let b := { k.bench with
    globalTurnaroundTime := (k.bench.globalTurnaroundTime + p.turnaroundTime) % 2 ^ 64
    globalWaitingTime := (k.bench.globalWaitingTime + p.waitingTime) % 2 ^ 64
    completedBenchmarkProcesses := int32 (k.bench.completedBenchmarkProcesses + 1) }
  let done := k.ledger.done ++ [⟨k.ledger.ident q, p.turnaroundTime, p.waitingTime⟩]
  if b.completedBenchmarkProcesses = b.totalBenchmarkProcesses then
    Kernel.reset { k with console := k.console ++
      [⟨k.schedMode, average b.globalTurnaroundTime b.totalBenchmarkProcesses,
        average b.globalWaitingTime b.totalBenchmarkProcesses, k.ledger.counted, done⟩] }
  else { k with bench := b, ledger := { k.ledger with done := done } }

/-- The exiting process with its files closed and its metrics recorded. -/
def exiting (k : Kernel) (q : ProcId) : Proc :=
  (Proc.recordCompletion { k.procs q with ofile := fun _ => none, cwd := none }
    k.ticks).recordWaiting

def wakeupParent (procs : ProcId → Proc) (q : ProcId) : ProcId → Proc :=
  match (procs q).parent with
  | some p => wakeup procs (.proc p)
  | none => procs

/-- The table that exit leaves when it calls sched. -/
def exitTable (k : Kernel) (q : ProcId) (status : Int) : ProcId → Proc :=
  let procs := wakeupParent (reparent (Function.update k.procs q (exiting k q)) q) q
  Function.update procs q { procs q with xstate := status, state := .zombie }

def exit (k : Kernel) (q : ProcId) (status : Int) : Kernel :=
  let p := exiting k q
  { (if p.isBenchmarkProcess = 0 then k else account k q p) with
    procs := exitTable k q status }

/-- One pass of wait over the table: a zombie child is freed unless copyout fails; without
one the caller returns -1 or goes to sleep. -/
def wait (k : Kernel) (q : ProcId) (copyout : Bool) : Kernel :=
  let mine := fun i => decide ((k.procs i).parent = some q)
  match (List.finRange NPROC).find? fun i => mine i && decide ((k.procs i).state = .zombie) with
  | some i => if copyout then k.set i ((k.procs i).freeproc k.ticks) else k
  | none =>
    if (List.finRange NPROC).any mine && decide ((k.procs q).killed = 0) then
      k.set q { k.procs q with state := .sleeping, chan := some (.proc q) }
    else k

/-- The slot that kill and setpriority act on. -/
def byPid (procs : ProcId → Proc) (pid : Int) : Option ProcId :=
  (List.finRange NPROC).find? fun i => (procs i).pid = pid

def kill (k : Kernel) (pid : Int) : Kernel :=
  match byPid k.procs pid with
  | some i => k.set i (k.procs i).kill
  | none => k

def setpriority (k : Kernel) (pid priority : Int) : Kernel :=
  match byPid k.procs pid with
  | some i => k.set i { k.procs i with priority := priority }
  | none => k

def schedstats (k : Kernel) (mode : Int) : Kernel :=
  if mode < 0 ∨ 2 < mode then k else { k.reset with schedMode := mode }

def clockintr (k : Kernel) : Kernel :=
  { k with
    ticks := (k.ticks + 1) % 2 ^ 32
    procs := wakeup (fun i => (k.procs i).updateTime) .ticks }

inductive Call
  | fork (q : ProcId) (m : Mem)
  | exec (q : ProcId) (name : List Char)
  | exit (q : ProcId) (status : Int)
  | wait (q : ProcId) (copyout : Bool)
  | kill (pid : Int)
  | setpriority (pid priority : Int)
  | schedstats (mode : Int)
  | dispatch (p : ProcId)
  | yield (q : ProcId)
  | sleep (q : ProcId) (ch : Chan)
  | wakeup (ch : Chan)
  | setkilled (q : ProcId)
  | setFile (q : ProcId) (fd : Fin NOFILE) (f : Option Nat)
  | chdir (q : ProcId) (ip : Nat)
  | clockintr

/-- A step by the running process q that only changes its own slot. -/
def own (k : Kernel) (q : ProcId) (f : Proc → Proc) : Option Kernel :=
  if (k.procs q).state = .running then some (k.set q (f (k.procs q))) else none

/-- System calls are made by running processes; init does not exit, since that panics. A
process dispatched after a sleep clears its channel. -/
def next (k : Kernel) : Call → Option Kernel
  | .fork q m => if (k.procs q).state = .running then some (fork k q m) else none
  | .exec q name => own k q fun p => p.exec name
  | .exit q status =>
    if (k.procs q).state = .running ∧ q ≠ initproc then some (exit k q status) else none
  | .wait q c => if (k.procs q).state = .running then some (wait k q c) else none
  | .kill pid => some (kill k pid)
  | .setpriority pid prio => some (setpriority k pid prio)
  | .schedstats mode => some (schedstats k mode)
  | .dispatch p =>
    if (k.procs p).state = .runnable then
      some (k.set p { (k.procs p).dispatch k.ticks with chan := none })
    else none
  | .yield q => own k q fun p => { p with state := .runnable }
  | .sleep q ch => own k q fun p => { p with state := .sleeping, chan := some ch }
  | .wakeup ch => some { k with procs := wakeup k.procs ch }
  | .setkilled q => own k q fun p => { p with killed := 1 }
  | .setFile q fd f => own k q fun p => { p with ofile := Function.update p.ofile fd f }
  | .chdir q ip => own k q fun p => { p with cwd := some ip }
  | .clockintr => some (clockintr k)

/-- After userinit: the first process is RUNNABLE in slot 0, every other slot is zero. -/
def boot : Kernel where
  procs := Function.update (fun _ => Proc.zero) initproc Proc.userinit
  nextpid := 2
  ticks := 0
  schedMode := 0
  bench := Bench.zero
  console := []
  ledger := ⟨1, fun _ => 0, [], []⟩

end Xv6.Process.Calls
