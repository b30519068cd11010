import Xv6.Sections.FamilySteps
import Xv6.Sections.Records

set_option maxRecDepth 8192

namespace Xv6.Sections

open Xv6.Framework Xv6.Process

variable {w w' : World} {c n : Nat} {p q i j : ProcId} {k : Pc} {x : Proc} {l : Label}
  {tr : List (Event World Label)}

/-- The child whose parent fork has already set and that it has still to make RUNNABLE. -/
def Pc.linked : Pc → Option ProcId
  | .forkReady np => some np
  | .yielded k => k.linked
  | _ => none

/-- Every process but init has a parent. -/
structure Ancestry (w : World) : Prop where
  root : (w.procs initproc).parent = none
  parent : ∀ i, i ≠ initproc → placed (w.procs i).state = true → ∃ q, (w.procs i).parent = some q
  linked : ∀ p np, (w.pc p).linked = some np → ∃ q, (w.procs np).parent = some q

theorem Ancestry.setPc (ha : Ancestry w) (hk : k.linked = none ∨ k.linked = (w.pc p).linked) :
    Ancestry (w.setPc p k) where
  root := ha.root
  parent := ha.parent
  linked r np h := by
    have hr := ha.linked r np
    grind

theorem Ancestry.setProc (ha : Ancestry w) (hpar : x.parent = (w.procs q).parent)
    (hs : placed x.state = true → placed (w.procs q).state = true) :
    Ancestry (w.setProc q x) where
  root := by
    have h := ha.root
    grind
  parent i hi hp := by
    have h := ha.parent i hi
    grind
  linked r np h := by
    have hr := ha.linked r np h
    grind

theorem Ancestry.congr (ha : Ancestry w) (h1 : w'.procs = w.procs) (h2 : w'.pc = w.pc) :
    Ancestry w' := by
  obtain ⟨a, b, c⟩ := ha
  constructor <;> simp only [h1, h2] <;> assumption

theorem Ancestry.move (ha : Ancestry w) (h1 : w'.procs = w.procs)
    (h2 : w'.pc = Function.update w.pc p k) {k₀ : Pc} (hpc : w.pc p = k₀)
    (hk : k.linked = none ∨ k.linked = k₀.linked) : Ancestry w' := by
  subst hpc
  exact (ha.setPc hk).congr h1 h2

theorem Ancestry.edit (ha : Ancestry w) (h1 : w'.procs = Function.update w.procs q x)
    (h2 : w'.pc = Function.update w.pc p k) (hpar : x.parent = (w.procs q).parent)
    (hs : placed x.state = true → placed (w.procs q).state = true) {k₀ : Pc}
    (hpc : w.pc p = k₀) (hk : k.linked = none ∨ k.linked = k₀.linked) : Ancestry w' :=
  (ha.setProc hpar hs).move h1 h2 hpc hk

/-- fork and reparent set the parent of a process other than init. -/
theorem Ancestry.setParent (ha : Ancestry w) {r : ProcId} (hq : q ≠ initproc)
    (hk : k.linked = none ∨ k.linked = some q) :
    Ancestry ((w.setProc q { w.procs q with parent := some r }).setPc p k) where
  root := by
    have h := ha.root
    grind
  parent i hi hp := by
    have h := ha.parent i hi
    grind
  linked s np h := by
    have hs := ha.linked s np
    grind

/-- After n calls of allocpid by fork, with pids read as 32-bit words. -/
structure Pids (w : World) (n : Nat) : Prop where
  next : w.nextpid % 2 ^ 32 = n + 2
  bounds : ∀ i, (w.procs i).state ≠ .unused →
    1 ≤ (w.procs i).pid % 2 ^ 32 ∧ (w.procs i).pid % 2 ^ 32 ≤ n + 1
  distinct : ∀ i j, (w.procs i).state ≠ .unused → (w.procs j).state ≠ .unused →
    (w.procs i).pid % 2 ^ 32 = (w.procs j).pid % 2 ^ 32 → i = j

/-- Steps that take no pid keep the pids of the live processes. -/
theorem Pids.frame (hp : Pids w n) (h1 : w'.nextpid = w.nextpid)
    (h2 : ∀ i, (w'.procs i).state ≠ .unused →
      (w.procs i).state ≠ .unused ∧ (w'.procs i).pid = (w.procs i).pid) : Pids w' n where
  next := by
    rw [h1]
    exact hp.next
  bounds i hi := by
    rw [(h2 i hi).2]
    exact hp.bounds i (h2 i hi).1
  distinct i j hi hj := by
    rw [(h2 i hi).2, (h2 j hj).2]
    exact hp.distinct i j (h2 i hi).1 (h2 j hj).1

end Xv6.Sections
