import Xv6.Log.Replay
import Xv6.Framework.Monitor

namespace Xv6.Log.Group

open Xv6.Framework Xv6.Framework.Monitor

/-- Where a process is in begin_op, log_write, end_op and commit. `op` says whether it is in an
operation, that is between begin_op and end_op. -/
inductive Local
  | outside
  | inside
  | beginAcquire
  | beginLoop
  | beginSleep
  | beginRelease
  | writeAcquire (b : Nat) (op : Bool)
  | writeBody (b : Nat) (op : Bool)
  | writeRelease (op : Bool)
  | endAcquire
  | endBody
  | endWake
  | endRelease
  | commitRelease
  | commitTest
  | commitWrite
  | commitClear
  | doneAcquire
  | doneBody
  | doneWake
  | doneRelease
  | panic (op : Bool) (msg : String)
  deriving DecidableEq

/-- The code of log.c on struct log. Of commit there is what it does with the header in memory:
write_log, write_head and install_trans read it. -/
def code (g : Geometry) : Local → Instr LogState Unit Local
  | .outside => .user
  | .inside => .user
  | .beginAcquire => .acquire .beginLoop
  | .beginLoop => .act fun lg =>
      if Admits lg then ({ lg with outstanding := lg.outstanding + 1 }, .beginRelease)
      else (lg, .beginSleep)
  | .beginSleep => .sleep () .beginLoop
  | .beginRelease => .release .inside
  | .writeAcquire b op => .acquire (.writeBody b op)
  | .writeBody b op => .act fun lg =>
      match logWrite g lg b with
      | .ok lg' => (lg', .writeRelease op)
      | .error msg => (lg, .panic op msg)
  | .writeRelease op => .release (if op then .inside else .outside)
  | .endAcquire => .acquire .endBody
  | .endBody => .act fun lg =>
      let lg' := { lg with outstanding := lg.outstanding - 1 }
      if lg.committing then (lg', .panic false "log.committing")
      else if lg'.outstanding = 0 then ({ lg' with committing := true }, .commitRelease)
      else (lg', .endWake)
  | .endWake => .wakeup () .endRelease
  | .endRelease => .release .outside
  | .commitRelease => .release .commitTest
  | .commitTest => .act fun lg => (lg, if lg.lh = [] then .doneAcquire else .commitWrite)
  | .commitWrite => .act fun lg => (lg, .commitClear)
  | .commitClear => .act fun lg => ({ lg with lh := [] }, .doneAcquire)
  | .doneAcquire => .acquire .doneBody
  | .doneBody => .act fun lg => ({ lg with committing := false }, .doneWake)
  | .doneWake => .wakeup () .doneRelease
  | .doneRelease => .release .outside
  | .panic _ _ => .halt

inductive Call
  | beginOp
  | logWrite (b : Nat)
  | endOp

def enter : Local → Call → Option Local
  | .outside, .beginOp => some .beginAcquire
  | .outside, .logWrite b => some (.writeAcquire b false)
  | .inside, .logWrite b => some (.writeAcquire b true)
  | .inside, .endOp => some .endAcquire
  | _, _ => none

abbrev State := Xv6.Framework.Monitor.State NPROC LogState Unit Local

abbrev Label := Xv6.Framework.Monitor.Label NPROC Call

def next (g : Geometry) : State → Label → Option State := Xv6.Framework.Monitor.next (code g) enter

def init : State where
  data := .empty
  lock := none
  killed := fun _ => false
  status := fun _ => .run .outside

def holds : Local → Bool
  | .outside => false
  | .inside => false
  | .beginAcquire => false
  | .writeAcquire _ _ => false
  | .endAcquire => false
  | .commitTest => false
  | .commitWrite => false
  | .commitClear => false
  | .doneAcquire => false
  | _ => true

/-- The process is in an operation that log.outstanding counts. -/
def Local.inOp : Local → Bool
  | .inside => true
  | .beginRelease => true
  | .writeAcquire _ op => op
  | .writeBody _ op => op
  | .writeRelease op => op
  | .endAcquire => true
  | .endBody => true
  | .panic op _ => op
  | _ => false

/-- The process commits, from the store to log.committing to its end. -/
def Local.commits : Local → Bool
  | .commitRelease => true
  | .commitTest => true
  | .commitWrite => true
  | .commitClear => true
  | .doneAcquire => true
  | .doneBody => true
  | _ => false

def Local.cleared : Local → Bool
  | .doneAcquire => true
  | .doneBody => true
  | _ => false

theorem paired (g : Geometry) : Paired (code g) enter holds := by
  intro l
  cases l with
  | outside =>
    refine ⟨rfl, fun a m h => ?_⟩
    cases a <;> cases h <;> rfl
  | inside =>
    refine ⟨rfl, fun a m h => ?_⟩
    cases a <;> cases h <;> rfl
  | beginLoop =>
    intro lg
    show holds (ite _ _ _ : LogState × Local).2 = true
    split <;> rfl
  | writeBody b op =>
    intro lg
    show holds (match logWrite g lg b with
      | .ok lg' => (lg', Local.writeRelease op)
      | .error msg => (lg, .panic op msg)).2 = true
    split <;> rfl
  | writeRelease op => cases op <;> rfl
  | endBody =>
    intro lg
    show holds (ite _ _ _ : LogState × Local).2 = true
    split
    · rfl
    · split <;> rfl
  | commitTest =>
    intro lg
    show holds (if _ then _ else _) = false
    split <;> rfl
  | beginAcquire => rfl
  | beginSleep => exact ⟨rfl, rfl⟩
  | beginRelease => rfl
  | writeAcquire b op => rfl
  | endAcquire => rfl
  | endWake => exact ⟨rfl, rfl⟩
  | endRelease => rfl
  | commitRelease => rfl
  | commitWrite => exact fun _ => rfl
  | commitClear => exact fun _ => rfl
  | doneAcquire => rfl
  | doneBody => exact fun _ => rfl
  | doneWake => exact ⟨rfl, rfl⟩
  | doneRelease => rfl
  | panic op msg => trivial

theorem held_init : Held holds init := by
  refine ⟨fun p => ?_, fun p h => absurd rfl (h .outside)⟩
  simp [init, Status.locks, holds]

end Xv6.Log.Group
