import Xv6.Param
import Xv6.Framework.Transition
import Xv6.Framework.WriteList
import Mathlib.Data.Finset.Card

namespace Xv6.Log

open Xv6.Framework

/-- A block of BSIZE bytes, read as an array of 32-bit words. -/
abbrev Data := Nat → Nat

/-- log.start and log.size as initlog takes them from the superblock; the header block is the
first block of the area. -/
structure Geometry where
  start : Nat
  size : Nat
  pos : 0 < size

def mkfsGeometry : Geometry := ⟨logstart, nlog, by decide⟩

def Home (g : Geometry) (b : Nat) : Prop := b < g.start ∨ g.start + g.size ≤ b

instance (g : Geometry) (b : Nat) : Decidable (Home g b) :=
  inferInstanceAs (Decidable (_ ∨ _))

/-- struct log; lh lists lh.block[0..n). -/
structure LogState where
  outstanding : Int
  committing : Bool
  lh : List Nat

def LogState.empty : LogState := ⟨0, false, []⟩

/-- The loop of log_write: overwrite the entry of this block, or append one. -/
def absorb (b : Nat) : List Nat → List Nat
  | [] => [b]
  | x :: xs => if x = b then b :: xs else x :: absorb b xs

/-- log_write up to its bpin: the new log header, or the panic message. -/
def logWrite (g : Geometry) (lg : LogState) (b : Nat) : Except String LogState :=
  if (LOGSIZE : Int) ≤ lg.lh.length ∨ (g.size : Int) - 1 ≤ lg.lh.length then
    .error "too big a transaction"
  else if lg.outstanding < 1 then .error "log_write outside of trans"
  else .ok { lg with lh := absorb b lg.lh }

/-- The test of begin_op that lets an operation in. -/
def Admits (lg : LogState) : Prop :=
  lg.committing = false ∧ (lg.lh.length : Int) + (lg.outstanding + 1) * MAXOPBLOCKS ≤ LOGSIZE

instance (lg : LogState) : Decidable (Admits lg) := inferInstanceAs (Decidable (_ ∧ _))

/-- struct logheader in a block: word 0 is n, words 1.. are block[]. -/
def putHead (d : Data) (lh : List Nat) : Data := fun i =>
  if i = 0 then lh.length else (lh[i - 1]?).getD (d i)

def getHead (d : Data) : List Nat := (List.range (d 0)).map fun i => d (i + 1)

/-- One log_write call: the operation that made it, the block and its new contents. -/
structure Write where
  op : Nat
  blockno : Nat
  data : Data

def Write.pair (x : Write) : Nat × Data := (x.blockno, x.data)

/-- Where the process inside commit() or recover_from_log() is. -/
inductive Pc
  | idle
  | writeLog (tail : Nat)
  | writeHead
  | install (tail : Nat)
  | clear
  | finish
  | readHead
  | recover (tail : Nat)
  | recoverClear
  | panic (msg : String)
  deriving DecidableEq

/-- History variables; the code never reads them. base is the store left by the last completed
recovery, called lists the groups handed to commit() since, returned counts the commits that
have returned, cur is the group being collected, and writes o has every log_write of o. -/
structure Hist where
  base : Nat → Data
  called : List (List Write)
  returned : Nat
  cur : List Write
  writes : Nat → List Write
  nextOp : Nat

structure World where
  disk : Nat → Data
  cache : Nat → Option Data
  pins : Nat → Nat
  log : LogState
  active : Finset Nat
  pc : Pc
  hist : Hist

def World.bread (w : World) (b : Nat) : Data := (w.cache b).getD (w.disk b)

def World.load (w : World) (b : Nat) : World :=
  { w with cache := update w.cache b (some (w.bread b)) }

def World.bwrite (w : World) (b : Nat) (d : Data) : World :=
  { w with disk := update w.disk b d, cache := update w.cache b (some d) }

def World.bunpin (w : World) (b : Nat) : World :=
  { w with pins := update w.pins b (w.pins b - 1) }

/-- One iteration of write_log: copy the cached block b to log block tail. -/
def writeLogAt (g : Geometry) (w : World) (tail b : Nat) : World :=
  (w.load b).bwrite (g.start + tail + 1) (w.bread b)

/-- One iteration of install_trans: copy log block tail to its home block b. -/
def installAt (g : Geometry) (w : World) (tail b : Nat) : World :=
  (w.load (g.start + tail + 1)).bwrite b (w.bread (g.start + tail + 1))

def writeHead (g : Geometry) (w : World) : World :=
  w.bwrite g.start (putHead (w.bread g.start) w.log.lh)

def World.setLh (w : World) (lh : List Nat) : World := { w with log := { w.log with lh := lh } }

/-- end_op of an outstanding operation; the last one hands the group to commit(). -/
def endOp (w : World) (op : Nat) : World :=
  let lg := { w.log with outstanding := w.log.outstanding - 1 }
  let w := { w with log := lg, active := w.active.erase op }
  if lg.committing then { w with pc := .panic "log.committing" }
  else if lg.outstanding = 0 then
    let called := w.hist.called ++ [w.hist.cur]
    let w := { w with
      log := { lg with committing := true }
      hist := { w.hist with called := called, cur := [] } }
    if lg.lh = [] then
      { w with pc := .finish, hist := { w.hist with returned := called.length } }
    else { w with pc := .writeLog 0 }
  else w

/-- The next disk operation of commit(), of the end of end_op, or of recover_from_log(). -/
def proceed (g : Geometry) (w : World) : Option World :=
  match w.pc with
  | .idle => none
  | .writeLog t => match w.log.lh[t]? with
    | some b => some { writeLogAt g w t b with pc := .writeLog (t + 1) }
    | none => some { w with pc := .writeHead }
  | .writeHead => some { writeHead g w with pc := .install 0 }
  | .install t => match w.log.lh[t]? with
    | some b => some { (installAt g w t b).bunpin b with pc := .install (t + 1) }
    | none => some { w with pc := .clear }
  | .clear => some { writeHead g (w.setLh []) with
      pc := .finish, hist := { w.hist with returned := w.hist.called.length } }
  | .finish => some { w with log := { w.log with committing := false }, pc := .idle }
  | .readHead => some { (w.load g.start).setLh (getHead (w.bread g.start)) with pc := .recover 0 }
  | .recover t => match w.log.lh[t]? with
    | some b => some { installAt g w t b with pc := .recover (t + 1) }
    | none => some { w with pc := .recoverClear }
  | .recoverClear =>
    let w := writeHead g (w.setLh [])
    some { w with
      pc := .idle
      hist := { w.hist with base := w.disk, called := [], returned := 0, cur := [] } }
  | .panic _ => none

inductive Label
  | beginOp
  | logWrite (op blockno : Nat) (data : Data)
  | endOp (op : Nat)
  | proceed
  | bread (blockno : Nat)
  | recycle (blockno : Nat)
  | crash

/-- bread, an arbitrary change of the data, log_write and brelse by an outstanding operation. -/
def doLogWrite (g : Geometry) (w : World) (op b : Nat) (d : Data) : World :=
  match logWrite g w.log b with
  | .error msg => { w with pc := .panic msg }
  | .ok lg => { w with
      log := lg
      cache := update w.cache b (some d)
      pins := if b ∈ w.log.lh then w.pins else update w.pins b (w.pins b + 1)
      hist := { w.hist with
        cur := w.hist.cur ++ [⟨op, b, d⟩]
        writes := update w.hist.writes op (w.hist.writes op ++ [⟨op, b, d⟩]) } }

/-- Power loss: memory is gone and the next boot starts in recover_from_log. -/
def crash (w : World) : World :=
  { w with
    cache := fun _ => none
    pins := fun _ => 0
    log := LogState.empty
    active := ∅
    pc := .readHead
    hist := { w.hist with cur := [] } }

def Pc.up : Pc → Bool
  | .panic _ | .readHead | .recover _ | .recoverClear => false
  | _ => true

def beginOp (w : World) : World :=
  { w with
    log := { w.log with outstanding := w.log.outstanding + 1 }
    active := insert w.hist.nextOp w.active
    hist := { w.hist with nextOp := w.hist.nextOp + 1 } }

def next (g : Geometry) (w : World) : Label → Option World
  | .crash => some (crash w)
  | .proceed => proceed g w
  | .bread b => some (w.load b)
  | .recycle b =>
    if w.pins b = 0 then some { w with cache := update w.cache b none } else none
  | .beginOp => if w.pc.up ∧ Admits w.log then some (beginOp w) else none
  | .logWrite op b d =>
    if w.pc.up ∧ op ∈ w.active ∧ Home g b then some (doLogWrite g w op b d) else none
  | .endOp op => if w.pc.up ∧ op ∈ w.active then some (endOp w op) else none

def Init (g : Geometry) (w : World) : Prop :=
  ∃ disk : Nat → Data, disk g.start 0 = 0 ∧
    w = ⟨disk, fun _ => none, fun _ => 0, LogState.empty, ∅, .readHead,
      ⟨disk, [], 0, [], fun _ => [], 0⟩⟩

end Xv6.Log
