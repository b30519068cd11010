import Xv6.Framework.Monitor
import Xv6.Param

namespace Xv6.Pipes

open Xv6.Framework.Monitor

def PIPESIZE : Nat := 512

/-- What the sleepers wait for: &pi->nread and &pi->nwrite. -/
inductive Chan
  | nread
  | nwrite
  deriving DecidableEq

/-- A byte that pipewrite has stored, with the call and the place in its buffer. -/
structure Stored where
  call : Nat
  index : Nat
  byte : UInt8
  deriving DecidableEq

/-- What copyin gets at addr + i, if anything. -/
abbrev Buffer := Nat → Option UInt8

/-- struct pipe. The code never reads the last three fields: the buffers of the calls of pipewrite
so far, the bytes stored and the bytes removed. -/
structure Pipe where
  data : Fin PIPESIZE → UInt8
  nread : BitVec 32
  nwrite : BitVec 32
  readopen : Bool
  writeopen : Bool
  calls : List Buffer
  stored : List Stored
  removed : List UInt8

def slot (x : BitVec 32) : Fin PIPESIZE := ⟨x.toNat % PIPESIZE, Nat.mod_lt _ (by decide)⟩

namespace Pipe

/-- After pipealloc, in a page that has anything in it. -/
def init (junk : Fin PIPESIZE → UInt8) : Pipe := ⟨junk, 0, 0, true, true, [], [], []⟩

def Full (pi : Pipe) : Prop := pi.nwrite = pi.nread + BitVec.ofNat 32 PIPESIZE

instance (pi : Pipe) : Decidable pi.Full := inferInstanceAs (Decidable (_ = _))

/-- pi->data[pi->nwrite++ % PIPESIZE] = ch -/
def put (pi : Pipe) (call index : Nat) (ch : UInt8) : Pipe := { pi with
  data := Function.update pi.data (slot pi.nwrite) ch
  nwrite := pi.nwrite + 1
  stored := pi.stored ++ [⟨call, index, ch⟩] }

/-- ch = pi->data[pi->nread++ % PIPESIZE] -/
def take (pi : Pipe) : Pipe := { pi with
  nread := pi.nread + 1
  removed := pi.removed ++ [pi.data (slot pi.nread)] }

def ring (pi : Pipe) : List UInt8 :=
  (List.range (pi.nwrite - pi.nread).toNat).map fun j => pi.data (slot (pi.nread + BitVec.ofNat 32 j))

def storedBy (pi : Pipe) (call : Nat) : List Stored := pi.stored.filter (·.call = call)

end Pipe

/-- A call of pipewrite: its arguments, its number and its `i`. `announced` is the value that `i`
had at its last wakeup of readers; the code does not have it. -/
structure Write where
  buffer : Buffer
  n : Int
  call : Nat
  i : Nat
  announced : Nat

/-- A call of piperead: `n`, and where copyout succeeds. -/
structure Read where
  n : Int
  writable : Nat → Bool

inductive Local
  | user (r : Int)
  | writeAcquire (buffer : Buffer) (n : Int)
  | writeCall (buffer : Buffer) (n : Int)
  | writeLoop (v : Write)
  | writeKilled (v : Write)
  | writeByte (v : Write)
  | writeFull (v : Write)
  | writeSleep (v : Write)
  | writeEnd (v : Write)
  | writeRelease (v : Write)
  | writeFail (v : Write)
  | readAcquire (v : Read)
  | readLoop (v : Read)
  | readKilled (v : Read)
  | readSleep (v : Read)
  | readCopy (v : Read) (i : Nat)
  | readEnd (i : Nat)
  | readRelease (i : Nat)
  | readFail
  | closeAcquire (writable : Bool)
  | closeFlag (writable : Bool)
  | closeWake (writable : Bool)
  | closeRelease

def code : Local → Instr Pipe Chan Local
  | .user _ => .user
  | .writeAcquire buffer n => .acquire (.writeCall buffer n)
  | .writeCall buffer n => .act fun pi =>
      ({ pi with calls := pi.calls ++ [buffer] }, .writeLoop ⟨buffer, n, pi.calls.length, 0, 0⟩)
  | .writeLoop v => .act fun pi => (pi,
      if (v.i : Int) < v.n then
        if pi.readopen then .writeKilled v else .writeFail v
      else .writeEnd v)
  | .writeKilled v => .killed fun k => if k then .writeFail v else .writeByte v
  | .writeByte v => .act fun pi =>
      if pi.Full then (pi, .writeFull v)
      else match v.buffer v.i with
        | none => (pi, .writeEnd v)
        | some ch => (pi.put v.call v.i ch, .writeLoop { v with i := v.i + 1 })
  | .writeFull v => .wakeup .nread (.writeSleep { v with announced := v.i })
  | .writeSleep v => .sleep .nwrite (.writeLoop v)
  | .writeEnd v => .wakeup .nread (.writeRelease v)
  | .writeRelease v => .release (.user v.i)
  | .writeFail _ => .release (.user (-1))
  | .readAcquire v => .acquire (.readLoop v)
  | .readLoop v => .act fun pi => (pi,
      if pi.nread = pi.nwrite ∧ pi.writeopen then .readKilled v else .readCopy v 0)
  | .readKilled v => .killed fun k => if k then .readFail else .readSleep v
  | .readSleep v => .sleep .nread (.readLoop v)
  | .readCopy v i => .act fun pi =>
      if (i : Int) < v.n ∧ pi.nread ≠ pi.nwrite then
        (pi.take, if v.writable i then .readCopy v (i + 1) else .readEnd i)
      else (pi, .readEnd i)
  | .readEnd i => .wakeup .nwrite (.readRelease i)
  | .readRelease i => .release (.user i)
  | .readFail => .release (.user (-1))
  | .closeAcquire writable => .acquire (.closeFlag writable)
  | .closeFlag writable => .act fun pi =>
      (if writable then { pi with writeopen := false } else { pi with readopen := false },
        .closeWake writable)
  | .closeWake writable => .wakeup (if writable then .nread else .nwrite) .closeRelease
  | .closeRelease => .release (.user 0)

inductive Call
  | pipewrite (buffer : Buffer) (n : Int)
  | piperead (v : Read)
  | pipeclose (writable : Bool)

def enter : Local → Call → Option Local
  | .user _, .pipewrite buffer n => some (.writeAcquire buffer n)
  | .user _, .piperead v => some (.readAcquire v)
  | .user _, .pipeclose writable => some (.closeAcquire writable)
  | _, _ => none

/-- The system of the processes that share a pipe. Nothing keeps a process from a call after the
other end, or both, have been closed. -/
abbrev State := Xv6.Framework.Monitor.State NPROC Pipe Chan Local

abbrev Label := Xv6.Framework.Monitor.Label NPROC Call

def next : State → Label → Option State := Xv6.Framework.Monitor.next code enter

def init (junk : Fin PIPESIZE → UInt8) : State where
  data := .init junk
  lock := none
  killed := fun _ => false
  status := fun _ => .run (.user 0)

def holds : Local → Bool
  | .user _ => false
  | .writeAcquire _ _ => false
  | .readAcquire _ => false
  | .closeAcquire _ => false
  | _ => true

theorem paired : Paired code enter holds := by
  intro l
  cases l with
  | user r =>
    refine ⟨rfl, fun a m h => ?_⟩
    cases a <;> (cases h; rfl)
  | writeAcquire buffer n => rfl
  | writeCall buffer n => exact fun d => rfl
  | writeLoop v =>
    intro d
    show holds (if _ then _ else _) = true
    split
    · split <;> rfl
    · rfl
  | writeKilled v =>
    intro b
    cases b <;> rfl
  | writeByte v =>
    intro d
    show holds (ite _ _ _ : Pipe × Local).2 = true
    split
    · rfl
    · split <;> rfl
  | writeFull v => exact ⟨rfl, rfl⟩
  | writeSleep v => exact ⟨rfl, rfl⟩
  | writeEnd v => exact ⟨rfl, rfl⟩
  | writeRelease v => rfl
  | writeFail v => rfl
  | readAcquire v => rfl
  | readLoop v =>
    intro d
    show holds (if _ then _ else _) = true
    split <;> rfl
  | readKilled v =>
    intro b
    cases b <;> rfl
  | readSleep v => exact ⟨rfl, rfl⟩
  | readCopy v i =>
    intro d
    show holds (ite _ _ _ : Pipe × Local).2 = true
    split
    · show holds (if _ then _ else _) = true
      split <;> rfl
    · rfl
  | readEnd i => exact ⟨rfl, rfl⟩
  | readRelease i => rfl
  | readFail => rfl
  | closeAcquire w => rfl
  | closeFlag w => exact fun d => rfl
  | closeWake w => exact ⟨rfl, rfl⟩
  | closeRelease => rfl

theorem held_init (junk : Fin PIPESIZE → UInt8) : Held holds (init junk) := by
  refine ⟨fun p => ?_, fun p h => absurd rfl (h (.user 0))⟩
  simp [init, Status.locks, holds]

end Xv6.Pipes
