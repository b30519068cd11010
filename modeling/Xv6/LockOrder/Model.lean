import Xv6.Process.Slot
import Xv6.Framework.Transition

namespace Xv6.LockOrder

open Xv6.Framework Xv6.Process

/-- The statements of the kernel that matter for its spinlocks: those that take and drop them and
switch between stacks, and the loops of the functions that do so. A loop is at slot i. -/
inductive Op
  | acquire (l : Lock)
  | release (l : Lock)
  | sched
  | setProc (p : ProcId)
  | swtch (p : ProcId)
  | clearProc
  | newContext (p : ProcId)
  | yieldIf
  | panic
  | scheduler
  | scan (m : SchedMode) (i : Nat) (chosen : Option ProcId)
  | test (m : SchedMode) (p : ProcId) (chosen : Option ProcId)
  | allocproc (i : Nat)
  | found (np : ProcId)
  | wait (p : ProcId) (i : Nat) (havekids : Bool)
  | waitStat (p : ProcId) (i : Nat) (havekids : Bool)
  | reparent (i : Nat)
  | wakeup (i : Nat)
  | search (i : Nat)
  | updateTime (i : Nat)
  | sysSleep (p : ProcId)
  | monitor (p : ProcId) (n : Nat)
  deriving DecidableEq

def yield (p : ProcId) : List Op := [.acquire (.proc p), .sched, .release (.proc p)]

def sleep (p : ProcId) (lk : Lock) : List Op :=
  [.acquire (.proc p), .release lk, .sched, .release (.proc p), .acquire lk]

def killed (p : ProcId) : List Op := [.acquire (.proc p), .release (.proc p)]

def exit (p : ProcId) : List Op :=
  [.acquire .wait, .reparent 0, .wakeup 0, .acquire (.proc p), .release .wait, .sched, .panic]

def clockintr (c : Nat) : List Op :=
  if c = 0 then [.acquire .ticks, .updateTime 0, .wakeup 0, .release .ticks] else []

/-- One pass through a loop over the process table, or its end. -/
def eachSlot (i : Nat) (body : ProcId → List (List Op)) (done : List (List Op)) :
    List (List Op) :=
  if h : i < NPROC then body ⟨i, h⟩ else done

/-- The ways on from a statement that is none of a lock or a stack: what the data that it tests
can make of it. me is myproc(). -/
def Op.choices (me : Option ProcId) : Op → List (List Op)
  | .scheduler => [[.scan .roundRobin 0 none], [.scan .fcfs 0 none], [.scan .priority 0 none]]
  | .scan m i chosen =>
    eachSlot i (fun p => [[.acquire (.proc p), .test m p chosen]]) <| match chosen with
      | some p =>
        [[.setProc p, .swtch p, .release (.proc p), .clearProc, .scheduler]]
      | none => [[.scheduler]]
  | .test m p chosen =>
    [.release (.proc p), .scan m (p + 1) chosen] :: match m, chosen with
      | .roundRobin, _ => [[.setProc p, .swtch p, .release (.proc p), .clearProc, .scheduler]]
      | _, some q => [[.release (.proc q), .scan m (p + 1) (some p)]]
      | _, none => [[.scan m (p + 1) (some p)]]
  | .allocproc i =>
    eachSlot i (fun p => [[.acquire (.proc p), .found p],
      [.acquire (.proc p), .release (.proc p), .allocproc (i + 1)]]) [[]]
  | .found np =>
    [[.release (.proc np)], [.newContext np, .release (.proc np)],
      [.newContext np, .release (.proc np), .acquire .wait, .release .wait, .acquire (.proc np),
        .release (.proc np)]]
  | .wait p i havekids =>
    eachSlot i (fun pp => [[.wait p (i + 1) havekids],
      [.acquire (.proc pp), .release (.proc pp), .release .wait],
      [.acquire (.proc pp), .release (.proc pp), .wait p (i + 1) true]]) <|
    if havekids then
      [killed p ++ [.release .wait], killed p ++ sleep p .wait ++ [.wait p 0 false]]
    else [[.release .wait]]
  | .waitStat p i havekids =>
    eachSlot i (fun pp => [[.waitStat p (i + 1) havekids],
      [.acquire (.proc pp), .release (.proc pp), .release .wait],
      [.acquire (.proc pp), .release (.proc pp), .waitStat p (i + 1) true]]) <|
    if havekids then
      [[.release .wait], sleep p .wait ++ [.acquire .wait, .waitStat p 0 false]]
    else [[.release .wait]]
  | .reparent i => eachSlot i (fun _ => [[.reparent (i + 1)], [.wakeup 0, .reparent (i + 1)]]) [[]]
  | .wakeup i =>
    eachSlot i (fun p =>
      if me = some p then [[.wakeup (i + 1)]]
      else [[.acquire (.proc p), .release (.proc p), .wakeup (i + 1)]]) [[]]
  | .search i =>
    eachSlot i (fun p => [[.acquire (.proc p), .release (.proc p)],
      [.acquire (.proc p), .release (.proc p), .search (i + 1)]]) [[]]
  | .updateTime i =>
    eachSlot i (fun p => [[.acquire (.proc p), .release (.proc p), .updateTime (i + 1)]]) [[]]
  | .sysSleep p =>
    [[.release .ticks], killed p ++ [.release .ticks],
      killed p ++ sleep p .ticks ++ [.sysSleep p]]
  | .monitor p n =>
    [[.release (.obj n)], killed p ++ [.monitor p n], [.wakeup 0, .monitor p n],
      sleep p (.obj n) ++ [.monitor p n]]
  | _ => []

/-- A timer interrupt, or one of a device whose handler calls wakeup with its lock held. -/
inductive Irq
  | timer
  | device (n : Nat)

def kerneltrap (c : Nat) : Irq → List Op
  | .timer => clockintr c ++ [.yieldIf]
  | .device n => [.acquire (.obj n), .wakeup 0, .release (.obj n)]

/-- What a process does in the kernel. search is kill or sys_setpriority, and monitor is all code
that calls killed, sleep and wakeup with the lock of a pipe, the log, a sleep-lock or a device
held. -/
inductive Call
  | fork
  | wait
  | waitStat
  | exit
  | yield
  | search
  | setkilled (q : ProcId)
  | killed
  | sysSleep
  | sysUptime
  | monitor (n : Nat)

def Call.body (p : ProcId) : Call → List Op
  | .fork => [.allocproc 0]
  | .wait => [.acquire .wait, .wait p 0 false]
  | .waitStat => [.acquire .wait, .waitStat p 0 false]
  | .exit => LockOrder.exit p
  | .yield => LockOrder.yield p
  | .search => [.search 0]
  | .setkilled q => LockOrder.killed q
  | .killed => LockOrder.killed p
  | .sysSleep => [.acquire .ticks, .sysSleep p]
  | .sysUptime => [.acquire .ticks, .release .ticks]
  | .monitor n => [.acquire (.obj n), .monitor p n]

def forkret (p : ProcId) : List Op := [.release (.proc p)]

/-- proc, context and noff of struct cpu, and what is left to execute on the present stack. -/
structure Cpu where
  proc : Option ProcId
  context : List Op
  noff : Nat
  ops : List Op

/-- The holder of each lock, the CPUs, and the saved contexts of the processes. -/
structure World where
  lock : Lock → Option Nat
  cpu : Nat → Cpu
  context : ProcId → List Op

def World.setLock (w : World) (l : Lock) (o : Option Nat) : World :=
  { w with lock := Function.update w.lock l o }

def World.setCpu (w : World) (c : Nat) (x : Cpu) : World :=
  { w with cpu := Function.update w.cpu c x }

def World.setContext (w : World) (p : ProcId) (k : List Op) : World :=
  { w with context := Function.update w.context p k }

/-- sched() on CPU c, which goes on at k when it comes back. A failed check panics. -/
def schedAt (w : World) (c : Nat) (k : List Op) : Option World :=
  let x := w.cpu c
  match x.proc with
  | none => none
  | some p =>
    if w.lock (.proc p) = some c ∧ x.noff = 1 then
      some ((w.setContext p k).setCpu c { x with ops := x.context })
    else none

/-- CPU c executes op and then k, with the n-th outcome of what op tests. An acquire that has to
spin, and a panic, are no step. -/
def execOp (w : World) (c n : Nat) (op : Op) (k : List Op) : Option World :=
  let x := w.cpu c
  match op with
  | .acquire l =>
    if w.lock l = none then
      some ((w.setLock l (some c)).setCpu c { x with noff := x.noff + 1, ops := k })
    else none
  | .release l =>
    if w.lock l = some c then
      some ((w.setLock l none).setCpu c { x with noff := x.noff - 1, ops := k })
    else none
  | .sched => schedAt w c k
  | .setProc p => some (w.setCpu c { x with proc := some p, ops := k })
  | .swtch p => some (w.setCpu c { x with context := k, ops := w.context p })
  | .clearProc => some (w.setCpu c { x with proc := none, ops := k })
  | .newContext p => some ((w.setContext p (forkret p)).setCpu c { x with ops := k })
  | .yieldIf => match x.proc with
    | some p => some (w.setCpu c { x with ops := yield p ++ k })
    | none => some (w.setCpu c { x with ops := k })
  | .panic => none
  | op => (op.choices x.proc)[n]?.map fun j => w.setCpu c { x with ops := j ++ k }

inductive Label
  | exec (c n : Nat)
  | interrupt (c : Nat) (irq : Irq)
  | call (c : Nat) (a : Call)

/-- An interrupt is taken only by a CPU that holds no spinlock, since push_off turns them off. A
process calls into the kernel when its stack is empty. -/
def next (w : World) : Label → Option World
  | .exec c n => match (w.cpu c).ops with
    | op :: k => execOp w c n op k
    | [] => none
  | .interrupt c irq =>
    let x := w.cpu c
    if x.noff = 0 then some (w.setCpu c { x with ops := kerneltrap c irq ++ x.ops }) else none
  | .call c a =>
    let x := w.cpu c
    match x.ops, x.proc with
    | [], some p => some (w.setCpu c { x with ops := a.body p })
    | _, _ => none

def boot : World where
  lock := fun _ => none
  cpu := fun _ => ⟨none, [], 0, [.scheduler]⟩
  context := forkret

end Xv6.LockOrder
