import Xv6.Process.Slot
import Xv6.Framework.Transition

namespace Xv6.Sections

open Xv6.Framework Xv6.Process

/-- Where a process is in the kernel, at the granularity of lock-protected sections. -/
inductive Pc
  | user
  | forkret
  | yielded (k : Pc)
  | forkAlloc (i : Nat)
  | forkParent (np : ProcId)
  | forkReady (np : ProcId)
  | waitLock
  | waitScan (i : Nat) (havekids : Bool)
  | waitKilled (havekids : Bool)
  | waitUnlock (ret : Int)
  | waitSleepLock
  | waitSleepUnlock
  | waitSleepSched
  | waitWake
  | exitLock (status : Int)
  | exitTime (status : Int)
  | exitWaiting (status : Int)
  | exitReparent (status : Int) (i : Nat)
  | exitParent (status : Int)
  | exitZombie (status : Int)
  | exitUnlock
  | exitSched
  | wakeup (ch : Chan) (i : Nat) (k : Pc)
  | kill (pid : Int) (i : Nat)
  | sleepWake
  deriving DecidableEq

/-- The process holds no spinlock, so that a timer interrupt may make it yield. -/
def Pc.preemptible : Pc → Bool
  | .user | .forkAlloc _ | .forkParent _ | .forkReady _ | .waitLock | .exitLock _ | .kill _ _ =>
    true
  | _ => false

/-- A CPU scans the table in scheduler(), with the lock of chosen held, runs a process, or is
back from one whose lock it has still to release. -/
inductive Cpu
  | scan (mode : SchedMode) (i : Nat) (chosen : Option ProcId)
  | run (p : ProcId)
  | switched (p : ProcId)
  deriving DecidableEq

/-- clockintr on CPU 0. -/
inductive Clock
  | idle
  | update (i : Nat)
  deriving DecidableEq

structure Reap where
  child : Nat
  parent : Nat
  pid : Int
  status : Int

/-- History variables; the code never reads them. Forks are numbered, and ident is the number
of the occupant of a slot. -/
structure Hist where
  born : Nat
  ident : ProcId → Nat
  creator : Nat → Nat
  pids : Nat → Int
  exited : Nat → Option Int
  reaped : List Reap

/-- The last call of wait from a slot: its argument, the int that its copyout stored there, and
what it returned. -/
structure WaitCall where
  addr : UInt64
  status : Option Int
  ret : Option Int
  deriving DecidableEq

/-- lock p is the CPU that holds p->lock between two sections, waitLock the process that holds
wait_lock. -/
structure World where
  procs : ProcId → Proc
  lock : ProcId → Option Nat
  waitLock : Option ProcId
  pc : ProcId → Pc
  cpu : Nat → Cpu
  clock : Clock
  ticks : Nat
  mode : SchedMode
  nextpid : Int
  waits : ProcId → WaitCall
  hist : Hist

@[simps lock waitLock pc cpu ticks hist]
def World.setProc (w : World) (p : ProcId) (x : Proc) : World :=
  { w with procs := update w.procs p x }

@[simps procs waitLock pc cpu hist]
def World.setLock (w : World) (p : ProcId) (o : Option Nat) : World :=
  { w with lock := update w.lock p o }

@[simps procs lock waitLock cpu ticks hist]
def World.setPc (w : World) (p : ProcId) (k : Pc) : World :=
  { w with pc := update w.pc p k }

@[simps procs lock waitLock pc]
def World.setCpu (w : World) (c : Nat) (x : Cpu) : World :=
  { w with cpu := update w.cpu c x }

@[simps procs lock pc]
def World.setWait (w : World) (o : Option ProcId) : World := { w with waitLock := o }

@[simps procs lock waitLock pc cpu hist]
def World.setWaits (w : World) (p : ProcId) (x : WaitCall) : World :=
  { w with waits := update w.waits p x }

attribute [grind =] World.setProc_lock World.setProc_waitLock World.setProc_pc World.setProc_cpu
  World.setProc_ticks World.setProc_hist World.setLock_procs World.setLock_waitLock
  World.setLock_pc World.setLock_cpu World.setLock_hist World.setPc_procs World.setPc_lock
  World.setPc_waitLock World.setPc_cpu World.setPc_ticks World.setPc_hist World.setCpu_procs
  World.setCpu_lock World.setCpu_waitLock World.setCpu_pc World.setWait_procs World.setWait_lock
  World.setWait_pc World.setWaits_procs World.setWaits_lock World.setWaits_waitLock
  World.setWaits_pc World.setWaits_cpu World.setWaits_hist

section Fields

variable (w : World) (p q : ProcId) (x : Proc) (o : Option Nat) (k : Pc) (c d : Nat) (y : Cpu)
  (v : Option ProcId) (z : WaitCall)

@[simp, grind =] theorem setProc_procs :
    (w.setProc p x).procs q = if q = p then x else w.procs q := by
  simp [World.setProc, update_apply]

@[simp, grind =] theorem setLock_lock :
    (w.setLock p o).lock q = if q = p then o else w.lock q := by
  simp [World.setLock, update_apply]

@[simp, grind =] theorem setPc_pc : (w.setPc p k).pc q = if q = p then k else w.pc q := by
  simp [World.setPc, update_apply]

@[simp, grind =] theorem setCpu_cpu : (w.setCpu c y).cpu d = if d = c then y else w.cpu d := by
  simp [World.setCpu, update_apply]

@[simp, grind =] theorem setWait_waitLock : (w.setWait v).waitLock = v := rfl

@[simp] theorem setWaits_waits :
    (w.setWaits p z).waits q = if q = p then z else w.waits q := by
  simp [World.setWaits, update_apply]

end Fields

def takeWait (w : World) (p : ProcId) (k : Pc) : World :=
  (w.setPc p k).setWait (some p)

def dropWait (w : World) (p : ProcId) (k : Pc) : World := (w.setPc p k).setWait none

/-- The call of wait by p, up to acquire(&wait_lock). -/
def waitAt (w : World) (p : ProcId) (addr : UInt64) : World :=
  (w.setPc p .waitLock).setWaits p ⟨addr, none, none⟩

/-- wait by p releases wait_lock and returns. -/
def waitReturn (w : World) (p : ProcId) (ret : Int) : World :=
  (dropWait w p .user).setWaits p { w.waits p with ret := some ret }

def dropOwn (w : World) (p : ProcId) (k : Pc) : World := (w.setPc p k).setLock p none

/-- The chosen process starts to run, with its lock held. -/
def dispatch (w : World) (c : Nat) (p : ProcId) : World :=
  ((w.setProc p ((w.procs p).dispatch w.ticks)).setLock p (some c)).setCpu c (.run p)

def schedStep (w : World) (c : Nat) : Option World :=
  match w.cpu c with
  | .run _ => none
  | .switched p => some ((w.setLock p none).setCpu c (.scan w.mode 0 none))
  | .scan m i chosen =>
    if h : i < NPROC then
      let p : ProcId := ⟨i, h⟩
      if (w.lock p).isSome then none
      else if (w.procs p).state = .runnable ∧ prefers w.procs m p chosen = true then
        if m = .roundRobin then some (dispatch w c p)
        else
          let w := match chosen with
            | some q => w.setLock q none
            | none => w
          some ((w.setLock p (some c)).setCpu c (.scan m (i + 1) (some p)))
      else some (w.setCpu c (.scan m (i + 1) chosen))
    else match chosen with
      | some p => some (dispatch w c p)
      | none => some (w.setCpu c (.scan w.mode 0 none))

/-- What a process does next; go says whether an allocation or a copyout in the section
succeeds. -/
inductive Choice
  | go (ok : Bool)
  | fork
  | wait (addr : UInt64)
  | exit (status : Int)
  | kill (pid : Int)
  | sleep (ch : Chan)
  | yield

/-- allocproc and the first part of fork by p on the free slot np. -/
def forkAt (w : World) (p np : ProcId) (ok : Bool) : World :=
  let x := (w.procs np).claim w.nextpid
  let w := { w with nextpid := int32 (w.nextpid + 1) }
  if ok then
    let w := { w with hist := { w.hist with
      born := w.hist.born + 1
      ident := update w.hist.ident np w.hist.born
      creator := update w.hist.creator w.hist.born (w.hist.ident p)
      pids := update w.hist.pids w.hist.born x.pid } }
    ((w.setPc np .forkret).setProc np ((x.stamp w.ticks).copyFrom (w.procs p))).setPc p
      (.forkParent np)
  else (w.setProc np (x.freeproc w.ticks)).setPc p .user

/-- wait by p on its exited child, with the copyout of its status unless the argument is 0. -/
def reapAt (w : World) (p child : ProcId) : World :=
  let x := w.procs child
  let r : Reap := ⟨w.hist.ident child, w.hist.ident p, x.pid, x.xstate⟩
  let w := { w with hist := { w.hist with reaped := w.hist.reaped ++ [r] } }
  ((w.setProc child (x.freeproc w.ticks)).setPc p (.waitUnlock x.pid)).setWaits p { w.waits p with
    status := if (w.waits p).addr = 0 then none else some x.xstate }

/-- The process p leaves CPU c with its lock held. -/
def swtch (w : World) (c : Nat) (p : ProcId) (x : Proc) (k : Pc) : World :=
  (((w.setProc p x).setLock p (some c)).setPc p k).setCpu c (.switched p)

/-- p acquires its own lock at the end of exit. -/
def becomeZombie (w : World) (c : Nat) (p : ProcId) (status : Int) : World :=
  ((w.setLock p (some c)).setProc p
    { w.procs p with xstate := status, state := .zombie }).setPc p .exitUnlock

attribute [grind =] takeWait dropWait waitAt waitReturn dropOwn dispatch swtch becomeZombie
  Proc.copyFrom Proc.stamp Proc.claim Proc.freeproc

/-- The next section of the kernel function that p is in. -/
def proceed (w : World) (c : Nat) (p : ProcId) (ok : Bool) : Option World :=
  match w.pc p with
  | .user => none
  | .forkret => some (dropOwn w p .user)
  | .yielded k => some (dropOwn w p k)
  | .forkAlloc i =>
    if h : i < NPROC then
      let np : ProcId := ⟨i, h⟩
      if (w.lock np).isSome then none
      else if (w.procs np).state = .unused then some (forkAt w p np ok)
      else some (w.setPc p (.forkAlloc (i + 1)))
    else some (w.setPc p .user)
  | .forkParent np =>
    if w.waitLock = none then
      some ((w.setProc np { w.procs np with parent := some p }).setPc p (.forkReady np))
    else none
  | .forkReady np =>
    if (w.lock np).isSome then none
    else some ((w.setProc np { w.procs np with state := .runnable }).setPc p .user)
  | .waitLock =>
    if w.waitLock = none then some (takeWait w p (.waitScan 0 false)) else none
  | .waitScan i havekids =>
    if h : i < NPROC then
      let child : ProcId := ⟨i, h⟩
      if (w.procs child).parent = some p then
        if (w.lock child).isSome then none
        else if (w.procs child).state = .zombie then
          if (w.waits p).addr ≠ 0 ∧ ok = false then some (w.setPc p (.waitUnlock (-1)))
          else some (reapAt w p child)
        else some (w.setPc p (.waitScan (i + 1) true))
      else some (w.setPc p (.waitScan (i + 1) havekids))
    else some (w.setPc p (.waitKilled havekids))
  | .waitKilled havekids =>
    if havekids = false then some (w.setPc p (.waitUnlock (-1)))
    else if (w.lock p).isSome then none
    else if (w.procs p).killed ≠ 0 then some (w.setPc p (.waitUnlock (-1)))
    else some (w.setPc p .waitSleepLock)
  | .waitUnlock ret => some (waitReturn w p ret)
  | .waitSleepLock =>
    if (w.lock p).isSome then none else some ((w.setLock p (some c)).setPc p .waitSleepUnlock)
  | .waitSleepUnlock => some (dropWait w p .waitSleepSched)
  | .waitSleepSched =>
    some (swtch w c p { w.procs p with chan := some (.proc p), state := .sleeping } .waitWake)
  | .waitWake => some (dropOwn (w.setProc p { w.procs p with chan := none }) p .waitLock)
  | .exitLock status =>
    if w.waitLock = none then some (takeWait w p (.exitTime status)) else none
  | .exitTime status =>
    some ((w.setProc p ((w.procs p).recordCompletion w.ticks)).setPc p (.exitWaiting status))
  | .exitWaiting status =>
    some ((w.setProc p (w.procs p).recordWaiting).setPc p (.exitReparent status 0))
  | .exitReparent status i =>
    if h : i < NPROC then
      let child : ProcId := ⟨i, h⟩
      if (w.procs child).parent = some p then
        some ((w.setProc child { w.procs child with parent := some initproc }).setPc p
          (.wakeup (.proc initproc) 0 (.exitReparent status (i + 1))))
      else some (w.setPc p (.exitReparent status (i + 1)))
    else some (w.setPc p (.exitParent status))
  | .exitParent status => match (w.procs p).parent with
    | some pp => some (w.setPc p (.wakeup (.proc pp) 0 (.exitZombie status)))
    | none => some (w.setPc p (.exitZombie status))
  | .exitZombie status =>
    if (w.lock p).isSome then none else some (becomeZombie w c p status)
  | .exitUnlock => some (dropWait w p .exitSched)
  | .exitSched => some (swtch w c p (w.procs p) .exitSched)
  | .wakeup ch i k =>
    if h : i < NPROC then
      let q : ProcId := ⟨i, h⟩
      if q = p then some (w.setPc p (.wakeup ch (i + 1) k))
      else if (w.lock q).isSome then none
      else some ((w.setProc q ((w.procs q).wakeup ch)).setPc p (.wakeup ch (i + 1) k))
    else some (w.setPc p k)
  | .kill pid i =>
    if h : i < NPROC then
      let q : ProcId := ⟨i, h⟩
      if (w.lock q).isSome then none
      else if (w.procs q).pid = pid then some ((w.setProc q (w.procs q).kill).setPc p .user)
      else some (w.setPc p (.kill pid (i + 1)))
    else some (w.setPc p .user)
  | .sleepWake => some (dropOwn (w.setProc p { w.procs p with chan := none }) p .user)

/-- The call of exit by p, up to acquire(&wait_lock). -/
def exitAt (w : World) (p : ProcId) (status : Int) : World :=
  let x := { w.procs p with ofile := fun _ => none, cwd := none }
  let w := { w with hist := { w.hist with
    exited := update w.hist.exited (w.hist.ident p) (some status) } }
  (w.setProc p x).setPc p (.exitLock status)

/-- A step of the process p that runs on CPU c. Only wait sleeps on a process address, and init
does not exit, since that panics. -/
def procStep (w : World) (c : Nat) (p : ProcId) : Choice → Option World
  | .go ok => proceed w c p ok
  | .fork => if w.pc p = .user then some (w.setPc p (.forkAlloc 0)) else none
  | .wait addr => if w.pc p = .user then some (waitAt w p addr) else none
  | .exit status =>
    if w.pc p = .user ∧ p ≠ initproc then some (exitAt w p status) else none
  | .kill pid => if w.pc p = .user then some (w.setPc p (.kill pid 0)) else none
  | .sleep (.proc _) => none
  | .sleep ch =>
    if w.pc p = .user ∧ w.lock p = none then
      some (swtch w c p { w.procs p with chan := some ch, state := .sleeping } .sleepWake)
    else none
  | .yield =>
    if (w.pc p).preemptible = true ∧ w.lock p = none then
      some (swtch w c p { w.procs p with state := .runnable } (.yielded (w.pc p)))
    else none

/-- CPU 0 can take an interrupt. -/
def World.interruptible (w : World) : Bool :=
  match w.cpu 0 with
  | .scan _ _ chosen => chosen.isNone
  | .run p => (w.pc p).preemptible
  | .switched _ => false

/-- ticks++, and then one slot of update_time after the other. -/
def clockStep (w : World) : Option World :=
  match w.clock with
  | .idle =>
    if w.interruptible then
      some { w with ticks := (w.ticks + 1) % 2 ^ 32, clock := .update 0 }
    else none
  | .update i =>
    if h : i < NPROC then
      let p : ProcId := ⟨i, h⟩
      if (w.lock p).isSome then none
      else some { w.setProc p (w.procs p).updateTime with clock := .update (i + 1) }
    else some { w with clock := .idle }

/-- CPU 0 does nothing else while it is in clockintr. -/
def World.ready (w : World) (c : Nat) : Bool := decide (c ≠ 0) || decide (w.clock = .idle)

inductive Label
  | sched (c : Nat)
  | proc (c : Nat) (a : Choice)
  | clock
  | wakeup (ch : Chan) (p : ProcId)
  | setMode (m : SchedMode)
  | setPriority (p : ProcId) (priority : Int)

/-- wakeup steps are the sections of any wakeup by interrupts and other kernel code. -/
def next (w : World) : Label → Option World
  | .sched c => if w.ready c then schedStep w c else none
  | .proc c a => if w.ready c then match w.cpu c with
      | .run p => procStep w c p a
      | _ => none
    else none
  | .clock => clockStep w
  | .wakeup (.proc _) _ => none
  | .wakeup ch p =>
    if (w.lock p).isSome then none else some (w.setProc p ((w.procs p).wakeup ch))
  | .setMode m => some { w with mode := m }
  | .setPriority p priority =>
    if (w.lock p).isSome then none else some (w.setProc p { w.procs p with priority := priority })

/-- After userinit, with every CPU at the start of its scheduler loop. -/
def boot : World where
  procs := update (fun _ => Proc.zero) initproc Proc.userinit
  lock := fun _ => none
  waitLock := none
  pc := fun _ => .forkret
  cpu := fun _ => .scan .roundRobin 0 none
  clock := .idle
  ticks := 0
  mode := .roundRobin
  nextpid := 2
  waits := fun _ => ⟨0, none, none⟩
  hist := ⟨1, fun _ => 0, fun _ => 0, fun _ => 1, fun _ => none, []⟩

section ForkFields

variable (w : World) (p q r i : ProcId) (n : Nat)

@[grind =] theorem forkAt_procs : (forkAt w p q true).procs i =
    if i = q then (((w.procs q).claim w.nextpid).stamp w.ticks).copyFrom (w.procs p)
    else w.procs i := by
  simp [forkAt]

@[grind =] theorem forkAt_pc : (forkAt w p q true).pc r =
    if r = p then .forkParent q else if r = q then .forkret else w.pc r := by
  simp [forkAt]

@[grind =] theorem forkAt_ident : (forkAt w p q true).hist.ident i =
    if i = q then w.hist.born else w.hist.ident i := by
  simp [forkAt, update_apply]

@[grind =] theorem forkAt_creator : (forkAt w p q true).hist.creator n =
    if n = w.hist.born then w.hist.ident p else w.hist.creator n := by
  simp [forkAt, update_apply]

@[grind =] theorem forkAt_pids : (forkAt w p q true).hist.pids n =
    if n = w.hist.born then w.nextpid else w.hist.pids n := by
  simp [forkAt, update_apply, Proc.claim]

@[grind =] theorem forkAt_born : (forkAt w p q true).hist.born = w.hist.born + 1 := rfl
@[grind =] theorem forkAt_exited : (forkAt w p q true).hist.exited n = w.hist.exited n := rfl
@[grind =] theorem forkAt_reaped : (forkAt w p q true).hist.reaped = w.hist.reaped := rfl

end ForkFields

section ReapFields

variable (w : World) (p q r i : ProcId) (n : Nat)

@[grind =] theorem reapAt_procs : (reapAt w p q).procs i =
    if i = q then (w.procs q).freeproc w.ticks else w.procs i := by
  simp [reapAt]

@[grind =] theorem reapAt_pc : (reapAt w p q).pc r =
    if r = p then .waitUnlock (w.procs q).pid else w.pc r := by
  simp [reapAt]

@[grind =] theorem reapAt_born : (reapAt w p q).hist.born = w.hist.born := rfl
@[grind =] theorem reapAt_ident : (reapAt w p q).hist.ident i = w.hist.ident i := rfl
@[grind =] theorem reapAt_creator : (reapAt w p q).hist.creator n = w.hist.creator n := rfl
@[grind =] theorem reapAt_pids : (reapAt w p q).hist.pids n = w.hist.pids n := rfl
@[grind =] theorem reapAt_exited : (reapAt w p q).hist.exited n = w.hist.exited n := rfl

@[grind =] theorem reapAt_reaped : (reapAt w p q).hist.reaped = w.hist.reaped ++
    [⟨w.hist.ident q, w.hist.ident p, (w.procs q).pid, (w.procs q).xstate⟩] := rfl

end ReapFields

section ExitFields

variable (w : World) (p q r i : ProcId) (s : Int) (n : Nat)

@[grind =] theorem exitAt_procs : (exitAt w p s).procs i =
    if i = p then { w.procs p with ofile := fun _ => none, cwd := none } else w.procs i := by
  simp [exitAt]

@[grind =] theorem exitAt_pc : (exitAt w p s).pc r = if r = p then .exitLock s else w.pc r := by
  simp [exitAt]

@[grind =] theorem exitAt_ident : (exitAt w p s).hist.ident i = w.hist.ident i := rfl
@[grind =] theorem exitAt_creator : (exitAt w p s).hist.creator n = w.hist.creator n := rfl
@[grind =] theorem exitAt_pids : (exitAt w p s).hist.pids n = w.hist.pids n := rfl

@[grind =] theorem exitAt_exited : (exitAt w p s).hist.exited n =
    if n = w.hist.ident p then some s else w.hist.exited n := by
  simp [exitAt, update_apply]

end ExitFields

end Xv6.Sections
