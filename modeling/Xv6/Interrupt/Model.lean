import Xv6.Process.Slot
import Xv6.Framework.Transition

namespace Xv6.Interrupt

open Xv6.Framework Xv6.Process

/-- The loops over the process table that hold the lock of one slot at a time. -/
inductive Sweep
  | wakeup (ch : Chan)
  | updateTime
  | kill (pid : Int)
  deriving DecidableEq

/-- wakeup passes over the slot of myproc(). -/
def Sweep.skips : Sweep → Option ProcId → ProcId → Bool
  | .wakeup _, me, p => decide (me = some p)
  | _, _, _ => false

def Sweep.apply : Sweep → Proc → Proc
  | .wakeup ch, x => x.wakeup ch
  | .updateTime, x => x.updateTime
  | .kill pid, x => if x.pid = pid then x.kill else x

def Sweep.found : Sweep → Proc → Bool
  | .kill pid, x => decide (x.pid = pid)
  | _, _ => false

inductive Op
  | acquire (l : Lock)
  | release (l : Lock)
  | sched
  | restore (intena : Bool)
  | setState (p : ProcId) (s : ProcState)
  | setChan (p : ProcId) (ch : Option Chan)
  | start (v : Sweep)
  | sweep (n : Nat) (v : Sweep) (i : Nat)
  | touch (n : Nat) (v : Sweep) (p : ProcId)
  | reparent (p : ProcId) (i : Nat)
  | wakeupParent (p : ProcId)
  | spawn (p : ProcId)
  | freeproc (p : ProcId)
  | tick
  | yieldIf
  | iret
  | panic
  deriving DecidableEq

/-- The next statement of scheduler(): the head of its loop, a slot of the scan, the test of the
slot it has locked, a release before the scan goes on, and what follows the scan. -/
inductive SchedPc
  | loop
  | scan (m : SchedMode) (i : Nat) (chosen : Option ProcId)
  | choose (m : SchedMode) (p : ProcId) (chosen : Option ProcId)
  | unlock (q : ProcId) (m : SchedMode) (i : Nat) (chosen : Option ProcId)
  | setRunning (p : ProcId)
  | setProc (p : ProcId)
  | swtch (p : ProcId)
  | back (p : ProcId)
  | clearProc
  deriving DecidableEq

def yield (p : ProcId) : List Op :=
  [.acquire (.proc p), .setState p .runnable, .sched, .release (.proc p)]

def sleep (p : ProcId) (ch : Chan) (lk : Lock) : List Op :=
  [.acquire (.proc p), .release lk, .setChan p (some ch), .setState p .sleeping, .sched,
    .setChan p none, .release (.proc p), .acquire lk]

def exit (p : ProcId) : List Op :=
  [.acquire .wait, .reparent p 0, .wakeupParent p, .acquire (.proc p), .setState p .zombie,
    .release .wait, .sched, .panic]

def forkret (p : ProcId) : List Op := [.release (.proc p)]

/-- A timer interrupt, or one of a device whose handler calls wakeup with its lock held. -/
inductive Irq
  | timer
  | device (n : Nat) (ch : Chan)

def clockintr (c : Nat) : List Op :=
  if c = 0 then
    [.acquire .ticks, .tick, .start .updateTime, .start (.wakeup .ticks), .release .ticks]
  else []

def kerneltrap (c : Nat) : Irq → List Op
  | .timer => clockintr c ++ [.yieldIf, .iret]
  | .device n ch => [.acquire (.obj n), .start (.wakeup ch), .release (.obj n), .iret]

/-- What a process does in the kernel. fork and wait are reduced to the sections in which they
hold the lock of the other slot; yield is the one of usertrap, and sleep and wakeup are called
with a lock held. -/
inductive Call
  | yield
  | sleep (ch : Chan) (lk : Lock)
  | exit
  | wakeup (ch : Chan) (lk : Lock)
  | kill (pid : Int)
  | fork (np : ProcId)
  | wait (child : ProcId)

def Call.body (p : ProcId) : Call → List Op
  | .yield => Interrupt.yield p
  | .sleep ch lk => .acquire lk :: (Interrupt.sleep p ch lk ++ [.release lk])
  | .exit => Interrupt.exit p
  | .wakeup ch lk => [.acquire lk, .start (.wakeup ch), .release lk]
  | .kill pid => [.start (.kill pid)]
  | .fork np => [.acquire (.proc np), .spawn np, .release (.proc np)]
  | .wait child =>
    [.acquire .wait, .acquire (.proc child), .freeproc child, .release (.proc child),
      .release .wait]

/-- The kernel stacks: that of scheduler() on a CPU, and those of the processes. -/
inductive Thread
  | sched (pc : SchedPc)
  | proc (p : ProcId)
  deriving DecidableEq

/-- A saved context, as what is left to execute on its stack. The stack of scheduler() has
statements of interrupt handlers on it only. -/
structure Context where
  thread : Thread
  ops : List Op
  deriving DecidableEq

/-- struct cpu, the interrupt-enable bit, and what the CPU executes. -/
structure Cpu where
  proc : Option ProcId
  context : Context
  noff : Nat
  intena : Bool
  intr : Bool
  run : Context
  deriving DecidableEq

def Cpu.goto (x : Cpu) (ops : List Op) : Cpu := { x with run := { x.run with ops := ops } }

def Cpu.pushOff (x : Cpu) : Cpu :=
  { x with
    intr := false
    intena := if x.noff = 0 then x.intr else x.intena
    noff := x.noff + 1 }

def Cpu.popOff (x : Cpu) : Cpu :=
  { x with
    noff := x.noff - 1
    intr := decide (x.noff = 1) && x.intena }

/-- calls numbers the sweeps; the code never reads it. -/
structure World where
  procs : ProcId → Proc
  context : ProcId → Context
  lock : Lock → Option Nat
  cpu : Nat → Cpu
  mode : SchedMode
  ticks : Nat
  nextpid : Int
  calls : Nat

@[simps context lock cpu calls]
def World.setProc (w : World) (p : ProcId) (x : Proc) : World :=
  { w with procs := update w.procs p x }

@[simps procs]
def World.setContext (w : World) (p : ProcId) (x : Context) : World :=
  { w with context := update w.context p x }

@[simps procs cpu]
def World.setLock (w : World) (l : Lock) (o : Option Nat) : World :=
  { w with lock := update w.lock l o }

@[simps procs context lock calls]
def World.setCpu (w : World) (c : Nat) (x : Cpu) : World :=
  { w with cpu := update w.cpu c x }

attribute [grind =] World.setProc_context World.setProc_lock World.setProc_cpu World.setProc_calls
  World.setContext_procs World.setLock_procs World.setLock_cpu World.setCpu_procs
  World.setCpu_context World.setCpu_lock World.setCpu_calls

section Fields

variable (w : World) (p q : ProcId) (x : Proc) (y : Context) (l m : Lock) (o : Option Nat)
  (c d : Nat) (z : Cpu)

@[simp, grind =] theorem setProc_procs :
    (w.setProc p x).procs q = if q = p then x else w.procs q := by
  simp [World.setProc, update_apply]

@[simp, grind =] theorem setContext_context :
    (w.setContext p y).context q = if q = p then y else w.context q := by
  simp [World.setContext, update_apply]

@[simp, grind =] theorem setLock_lock :
    (w.setLock l o).lock m = if m = l then o else w.lock m := by
  simp [World.setLock, update_apply]

@[simp, grind =] theorem setCpu_cpu : (w.setCpu c z).cpu d = if d = c then z else w.cpu d := by
  simp [World.setCpu, update_apply]

end Fields

def World.goto (w : World) (c : Nat) (ops : List Op) : World :=
  w.setCpu c ((w.cpu c).goto ops)

def World.resume (w : World) (c : Nat) (pc : SchedPc) : World :=
  w.setCpu c { w.cpu c with run := ⟨.sched pc, []⟩ }

def acquireAt (w : World) (c : Nat) (l : Lock) (run : Context) : Option World :=
  if w.lock l = none then
    some ((w.setLock l (some c)).setCpu c { (w.cpu c).pushOff with run := run })
  else none

def releaseAt (w : World) (c : Nat) (l : Lock) (run : Context) : Option World :=
  if w.lock l = some c ∧ (w.cpu c).intr = false ∧ 0 < (w.cpu c).noff then
    some ((w.setLock l none).setCpu c { (w.cpu c).popOff with run := run })
  else none

/-- What scheduler() does with the slot p whose lock it has just acquired. -/
def chooseNext (w : World) (m : SchedMode) (p : ProcId) (chosen : Option ProcId) : SchedPc :=
  if (w.procs p).state = .runnable ∧ prefers w.procs m p chosen = true then
    if m = .roundRobin then .setRunning p
    else match chosen with
      | some q => .unlock q m (p + 1) (some p)
      | none => .scan m (p + 1) (some p)
  else .unlock p m (p + 1) chosen

def schedule (w : World) (c : Nat) : SchedPc → Option World
  | .loop => some (w.setCpu c
      { w.cpu c with intr := true, run := ⟨.sched (.scan w.mode 0 none), []⟩ })
  | .scan m i chosen =>
    if h : i < NPROC then
      acquireAt w c (.proc ⟨i, h⟩) ⟨.sched (.choose m ⟨i, h⟩ chosen), []⟩
    else match chosen with
      | some p => some (w.resume c (.setRunning p))
      | none => some (w.resume c .loop)
  | .choose m p chosen => some (w.resume c (chooseNext w m p chosen))
  | .unlock q m i chosen => releaseAt w c (.proc q) ⟨.sched (.scan m i chosen), []⟩
  | .setRunning p =>
    some ((w.setProc p ((w.procs p).dispatch w.ticks)).resume c (.setProc p))
  | .setProc p =>
    some (w.setCpu c { w.cpu c with proc := some p, run := ⟨.sched (.swtch p), []⟩ })
  | .swtch p =>
    some (w.setCpu c { w.cpu c with context := ⟨.sched (.back p), []⟩, run := w.context p })
  | .back p => releaseAt w c (.proc p) ⟨.sched .clearProc, []⟩
  | .clearProc => some (w.setCpu c { w.cpu c with proc := none, run := ⟨.sched .loop, []⟩ })

def sweepNext (me : Option ProcId) (n : Nat) (v : Sweep) (i : Nat) (k : List Op) : List Op :=
  if h : i < NPROC then
    if v.skips me ⟨i, h⟩ then .sweep n v (i + 1) :: k
    else .acquire (.proc ⟨i, h⟩) :: .touch n v ⟨i, h⟩ :: k
  else k

def reparentAt (w : World) (c : Nat) (p : ProcId) (i : Nat) (k : List Op) : World :=
  if h : i < NPROC then
    if (w.procs ⟨i, h⟩).parent = some p then
      (w.setProc ⟨i, h⟩ { w.procs ⟨i, h⟩ with parent := some initproc }).goto c
        (.start (.wakeup (.proc initproc)) :: .reparent p (i + 1) :: k)
    else w.goto c (.reparent p (i + 1) :: k)
  else w.goto c k

/-- sched() by CPU c, which goes on at k when it comes back. A failed check panics. -/
def schedAt (w : World) (c : Nat) (k : List Op) : Option World :=
  let x := w.cpu c
  match x.proc with
  | none => none
  | some p =>
    if w.lock (.proc p) = some c ∧ x.noff = 1 ∧ (w.procs p).state ≠ .running ∧ x.intr = false then
      some ((w.setContext p ⟨x.run.thread, .restore x.intena :: k⟩).setCpu c
        { x with run := x.context })
    else none

/-- CPU c forks into the slot p if it is free: allocproc and the end of fork. -/
def spawnAt (w : World) (c : Nat) (p : ProcId) : World :=
  if (w.procs p).state = .unused then
    let child := ((w.procs p).claim w.nextpid).stamp w.ticks
    { (w.setProc p { child with parent := (w.cpu c).proc, state := .runnable }).setContext p
        ⟨.proc p, forkret p⟩ with
      nextpid := int32 (w.nextpid + 1) }
  else w

/-- wait on CPU c frees the slot p if it is that of a child that has exited. -/
def freeAt (w : World) (c : Nat) (p : ProcId) : World :=
  if (w.procs p).parent = (w.cpu c).proc ∧ (w.procs p).state = .zombie then
    w.setProc p ((w.procs p).freeproc w.ticks)
  else w

/-- CPU c executes op and then k. An acquire that has to spin, and a panic, are no step. -/
def execOp (w : World) (c : Nat) (op : Op) (k : List Op) : Option World :=
  let x := w.cpu c
  match op with
  | .acquire l => acquireAt w c l ⟨x.run.thread, k⟩
  | .release l => releaseAt w c l ⟨x.run.thread, k⟩
  | .sched => schedAt w c k
  | .restore intena => some (w.setCpu c { x.goto k with intena := intena })
  | .setState p s => some ((w.setProc p { w.procs p with state := s }).goto c k)
  | .setChan p ch => some ((w.setProc p { w.procs p with chan := ch }).goto c k)
  | .start v => some { w.goto c (.sweep w.calls v 0 :: k) with calls := w.calls + 1 }
  | .sweep n v i => some (w.goto c (sweepNext x.proc n v i k))
  | .touch n v p =>
    some ((w.setProc p (v.apply (w.procs p))).goto c
      (.release (.proc p) :: if v.found (w.procs p) then k else .sweep n v (p + 1) :: k))
  | .reparent p i => some (reparentAt w c p i k)
  | .wakeupParent p => match (w.procs p).parent with
    | some q => some (w.goto c (.start (.wakeup (.proc q)) :: k))
    | none => some (w.goto c k)
  | .spawn p => some ((spawnAt w c p).goto c k)
  | .freeproc p => some ((freeAt w c p).goto c k)
  | .tick => some { w.goto c k with ticks := (w.ticks + 1) % 2 ^ 32 }
  | .yieldIf => match x.proc with
    | some p => some (w.goto c (yield p ++ k))
    | none => some (w.goto c k)
  | .iret => some (w.setCpu c { x.goto k with intr := true })
  | .panic => none

def exec (w : World) (c : Nat) : Option World :=
  match (w.cpu c).run with
  | ⟨_, op :: k⟩ => execOp w c op k
  | ⟨.sched pc, []⟩ => schedule w c pc
  | ⟨.proc _, []⟩ => none

inductive Label
  | exec (c : Nat)
  | interrupt (c : Nat) (irq : Irq)
  | call (c : Nat) (a : Call)
  | setIntr (c : Nat) (b : Bool)
  | setMode (m : SchedMode)
  | setPriority (p : ProcId) (priority : Int)

def Lock.isProc : Lock → Bool
  | .proc _ => true
  | _ => false

/-- usertrap has interrupts off when it yields, init does not exit, and the lock given to sleep
and held around wakeup is none of the process table. -/
def Call.allowed (p : ProcId) (intr : Bool) : Call → Bool
  | .yield => !intr
  | .sleep _ lk | .wakeup _ lk => !Lock.isProc lk
  | .exit => decide (p ≠ initproc)
  | _ => true

/-- A CPU executes the next statement, or takes an interrupt; a process outside the functions
above calls one of them, or turns interrupts on or off as usertrap and usertrapret do. -/
def next (w : World) : Label → Option World
  | .exec c => exec w c
  | .interrupt c irq =>
    let x := w.cpu c
    if x.intr then
      some (w.setCpu c { x.goto (kerneltrap c irq ++ x.run.ops) with intr := false })
    else none
  | .call c a =>
    let x := w.cpu c
    match x.run, x.proc with
    | ⟨.proc _, []⟩, some p => if a.allowed p x.intr then some (w.goto c (a.body p)) else none
    | _, _ => none
  | .setIntr c b =>
    let x := w.cpu c
    match x.run with
    | ⟨.proc _, []⟩ => some (w.setCpu c { x with intr := b })
    | _ => none
  | .setMode m => some { w with mode := m }
  | .setPriority p priority =>
    if w.lock (.proc p) = none then
      some (w.setProc p { w.procs p with priority := priority })
    else none

def boot : World where
  procs := update (fun _ => Proc.zero) initproc Proc.userinit
  context := fun p => ⟨.proc p, forkret p⟩
  lock := fun _ => none
  cpu := fun _ => ⟨none, ⟨.sched .loop, []⟩, 0, false, false, ⟨.sched .loop, []⟩⟩
  mode := .roundRobin
  ticks := 0
  nextpid := 2
  calls := 0

end Xv6.Interrupt
