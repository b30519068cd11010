import Xv6.Param

namespace Xv6.Process

def int32 (x : Int) : Int := x.bmod (2 ^ 32)

def sub64 (a b : Nat) : Nat := (a + (2 ^ 64 - b % 2 ^ 64)) % 2 ^ 64

theorem sub64_of_le {a b : Nat} (h : b ≤ a) (ha : a < 2 ^ 64) : sub64 a b = a - b := by
  unfold sub64
  omega

inductive ProcState
  | unused
  | used
  | sleeping
  | runnable
  | running
  | zombie
  deriving DecidableEq, Repr

abbrev ProcId := Fin NPROC

def initproc : ProcId := 0

/-- Sleep channels: the address of a process, of ticks, or of another kernel object. -/
inductive Chan
  | proc (p : ProcId)
  | ticks
  | obj (n : Nat)
  deriving DecidableEq

/-- Spinlocks: wait_lock, p->lock, tickslock, and those of other kernel objects. -/
inductive Lock
  | wait
  | proc (p : ProcId)
  | ticks
  | obj (n : Nat)
  deriving DecidableEq

/-- struct proc without its lock, stack, memory, trapframe, context and the unread responded. -/
structure Proc where
  state : ProcState
  chan : Option Chan
  killed : Int
  xstate : Int
  pid : Int
  ctime : Nat
  rtime : Nat
  starttime : Nat
  completetime : Nat
  isBenchmarkProcess : Int
  priority : Int
  turnaroundTime : Nat
  waitingTime : Nat
  parent : Option ProcId
  ofile : Fin NOFILE → Option Nat
  cwd : Option Nat
  name : List Char

def Proc.zero : Proc :=
  ⟨.unused, none, 0, 0, 0, 0, 0, 0, 0, 0, 0, 0, 0, none, fun _ => none, none, []⟩

def schedbench : List Char := ['s', 'c', 'h', 'e', 'd', 'b', 'e', 'n', 'c', 'h']

def initcode : List Char := ['i', 'n', 'i', 't', 'c', 'o', 'd', 'e']

/-- safestrcpy(s, t, n) for a string t of bytes other than 0. -/
def safestrcpy (t : List Char) (n : Nat) : List Char := t.take (n - 1)

/-- strncmp(p, q, n) == 0 for strings of bytes other than 0. -/
def strncmpEq (p q : List Char) (n : Nat) : Bool := p.take n == q.take n

theorem strncmpEq_schedbench (p : List Char) : strncmpEq p schedbench 16 = true ↔ p = schedbench := by
  have hq : schedbench.take 16 = schedbench := rfl
  simp only [strncmpEq, hq, beq_iff_eq]
  constructor
  · intro h
    have hlen : min 16 p.length = 10 := by
      rw [← List.length_take, h]
      rfl
    rw [← h, List.take_of_length_le (by omega)]
  · rintro rfl
    rfl

def Proc.claim (p : Proc) (pid : Int) : Proc := { p with pid := pid, state := .used }

def Proc.stamp (p : Proc) (ticks : Nat) : Proc :=
  { p with ctime := ticks, completetime := 0, priority := 0, rtime := 0 }

def Proc.freeproc (p : Proc) (ticks : Nat) : Proc :=
  { p with
    pid := 0
    parent := none
    name := []
    chan := none
    killed := 0
    xstate := 0
    state := .unused
    completetime := ticks }

def Proc.userinit : Proc :=
  { (Proc.zero.claim 1).stamp 0 with name := initcode, cwd := some 0, state := .runnable }

/-- fork tests the name of the parent. -/
def Proc.runsSchedbench (p : Proc) : Bool := strncmpEq p.name schedbench 16

/-- What fork copies from the parent p into the new process np. -/
def Proc.copyFrom (np p : Proc) : Proc :=
  { np with
    ofile := fun fd => if (p.ofile fd).isSome then p.ofile fd else np.ofile fd
    cwd := p.cwd
    name := safestrcpy p.name 16
    isBenchmarkProcess := if p.runsSchedbench then 1 else np.isBenchmarkProcess }

def Proc.exec (p : Proc) (name : List Char) : Proc := { p with name := safestrcpy name 16 }

def Proc.updateTime (p : Proc) : Proc :=
  if p.state = .running then { p with rtime := (p.rtime + 1) % 2 ^ 64 } else p

@[simp] theorem Proc.updateTime_parent (p : Proc) : p.updateTime.parent = p.parent := by
  unfold Proc.updateTime
  split <;> rfl

theorem Proc.updateTime_ctime (p : Proc) : p.updateTime.ctime = p.ctime := by
  unfold Proc.updateTime
  split <;> rfl

/-- What scheduler does to the process it has chosen. -/
def Proc.dispatch (p : Proc) (ticks : Nat) : Proc :=
  { p with
    state := .running
    starttime := if p.starttime = 0 then ticks else p.starttime }

inductive SchedMode
  | roundRobin
  | fcfs
  | priority
  deriving DecidableEq

/-- Whether the scan of the given mode prefers the RUNNABLE process p to the one chosen so far. -/
def prefers (procs : ProcId → Proc) (m : SchedMode) (p : ProcId) : Option ProcId → Bool
  | none => true
  | some q => match m with
    | .roundRobin => false
    | .fcfs => decide ((procs p).ctime < (procs q).ctime)
    | .priority => decide ((procs q).priority < (procs p).priority)

def Proc.wakeup (p : Proc) (ch : Chan) : Proc :=
  if p.state = .sleeping ∧ p.chan = some ch then { p with state := .runnable } else p

theorem Proc.wakeup_eq (p : Proc) (ch : Chan) :
    p.wakeup ch = { p with state := (p.wakeup ch).state } := by
  unfold Proc.wakeup
  split <;> rfl

@[simp] theorem Proc.wakeup_ofile (p : Proc) (ch : Chan) : (p.wakeup ch).ofile = p.ofile := by
  rw [Proc.wakeup_eq]

@[simp] theorem Proc.wakeup_parent (p : Proc) (ch : Chan) : (p.wakeup ch).parent = p.parent := by
  rw [Proc.wakeup_eq]

theorem Proc.wakeup_ctime (p : Proc) (ch : Chan) : (p.wakeup ch).ctime = p.ctime := by
  rw [Proc.wakeup_eq]

def Proc.adopt (p : Proc) (q : ProcId) : Proc :=
  if p.parent = some q then { p with parent := some initproc } else p

@[simp] theorem Proc.adopt_ofile (p : Proc) (q : ProcId) : (p.adopt q).ofile = p.ofile := by
  unfold Proc.adopt
  split <;> rfl

def Proc.kill (p : Proc) : Proc :=
  { p with
    killed := 1
    state := if p.state = .sleeping then .runnable else p.state }

/-- exit reads ticks. -/
def Proc.recordCompletion (p : Proc) (ticks : Nat) : Proc :=
  { p with completetime := ticks, turnaroundTime := sub64 ticks p.ctime }

/-- exit then reads rtime. -/
def Proc.recordWaiting (p : Proc) : Proc :=
  { p with waitingTime := sub64 p.turnaroundTime p.rtime }

end Xv6.Process
