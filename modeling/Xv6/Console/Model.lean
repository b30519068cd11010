import Xv6.Framework.Transition

namespace Xv6.Console

open Xv6.Framework

def INPUT_BUF_SIZE : Nat := 128

def ctrl (x : UInt8) : UInt8 := x - 64

def ctrlD : UInt8 := ctrl 68
def ctrlH : UInt8 := ctrl 72
def ctrlP : UInt8 := ctrl 80
def ctrlU : UInt8 := ctrl 85
def newline : UInt8 := 10
def carriageReturn : UInt8 := 13
def delete : UInt8 := 127

/-- struct cons, without its lock. -/
structure Cons where
  buf : Fin INPUT_BUF_SIZE → UInt8
  r : UInt32
  w : UInt32
  e : UInt32

def slot (i : UInt32) : Fin INPUT_BUF_SIZE := ⟨i.toNat % INPUT_BUF_SIZE, Nat.mod_lt _ (by decide)⟩

/-- How consoleread leaves its critical section, with what it has copied out: it sleeps with `n` bytes
to go, or it returns their number, or -1 because the process is killed. -/
inductive Outcome
  | sleep (n : Nat) (out : List UInt8)
  | ret (out : List UInt8)
  | killed (out : List UInt8)
  deriving DecidableEq

namespace Cons

def killLine : Nat → Cons → Cons
  | 0, k => k
  | fuel + 1, k =>
    if k.e ≠ k.w ∧ k.buf (slot (k.e - 1)) ≠ newline then killLine fuel { k with e := k.e - 1 } else k

def consoleintr (k : Cons) (c : UInt8) : Cons :=
  if c = ctrlP then k
  else if c = ctrlU then killLine (k.e - k.w).toNat k
  else if c = ctrlH ∨ c = delete then if k.e ≠ k.w then { k with e := k.e - 1 } else k
  else if c ≠ 0 ∧ k.e - k.r < UInt32.ofNat INPUT_BUF_SIZE then
    let c := if c = carriageReturn then newline else c
    let k := { k with buf := Function.update k.buf (slot k.e) c, e := k.e + 1 }
    if c = newline ∨ c = ctrlD ∨ k.e - k.r = UInt32.ofNat INPUT_BUF_SIZE then { k with w := k.e }
    else k
  else k

/-- The loop of consoleread, up to the next sleep. -/
def consoleread (target : Nat) (killed : Bool) : Nat → Cons → List UInt8 → Cons × Outcome
  | 0, k, out => (k, .ret out)
  | n + 1, k, out =>
    if k.r = k.w then (k, if killed then .killed out else .sleep (n + 1) out)
    else
      let c := k.buf (slot k.r)
      let k := { k with r := k.r + 1 }
      if c = ctrlD then
        (if n + 1 < target then { k with r := k.r - 1 } else k, .ret out)
      else
        let out := out ++ [c]
        if c = newline then (k, .ret out) else consoleread target killed n k out

end Cons

structure Reader where
  target : Nat
  n : Nat
  out : List UInt8

/-- The console and its readers, with how calls have returned. -/
structure State (ι : Type) where
  cons : Cons
  killed : ι → Bool
  readers : ι → Option Reader
  returned : List (ι × Outcome)

inductive Label (ι : Type)
  | input (c : UInt8)
  | read (p : ι) (n : Int)
  | wake (p : ι)
  | kill (p : ι)

namespace State

variable {ι : Type} [DecidableEq ι]

def boot (buf : Fin INPUT_BUF_SIZE → UInt8) : State ι :=
  ⟨⟨buf, 0, 0, 0⟩, fun _ => false, fun _ => none, []⟩

/-- A process is in the critical section of consoleread. -/
def run (s : State ι) (p : ι) (v : Reader) : State ι :=
  match s.cons.consoleread v.target (s.killed p) v.n v.out with
  | (k, .sleep n out) =>
    { s with cons := k, readers := Function.update s.readers p (some ⟨v.target, n, out⟩) }
  | (k, o) =>
    { s with
      cons := k
      readers := Function.update s.readers p none
      returned := s.returned ++ [(p, o)] }

def next (s : State ι) : Label ι → Option (State ι)
  | .input c => some { s with cons := s.cons.consoleintr c }
  | .read p n => if s.readers p = none then some (s.run p ⟨n.toNat, n.toNat, []⟩) else none
  | .wake p => (s.readers p).map (s.run p)
  | .kill p => some { s with killed := Function.update s.killed p true }

end State

end Xv6.Console
