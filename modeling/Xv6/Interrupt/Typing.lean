import Xv6.Interrupt.Model
import Mathlib.Data.Finset.Card

namespace Xv6.Interrupt

open Xv6.Framework Xv6.Process

variable {t : Thread} {s : ProcState} {ops k : List Op} {ls : Finset Lock} {p q : ProcId}
  {st st' : ProcId → ProcState} {pc : SchedPc}

def chosenLocks : Option ProcId → Finset Lock
  | none => ∅
  | some p => {.proc p}

def SchedPc.locks : SchedPc → Finset Lock
  | .loop | .clearProc => ∅
  | .scan _ _ o => chosenLocks o
  | .choose _ p o | .unlock p _ _ o => insert (.proc p) (chosenLocks o)
  | .setRunning p | .setProc p | .swtch p | .back p => {.proc p}

/-- The value of c->proc, except at clearProc. -/
def SchedPc.proc : SchedPc → Option ProcId
  | .swtch p | .back p => some p
  | _ => none

/-- The points of the scan at which an interrupt may be taken. -/
def SchedPc.calm : SchedPc → Bool
  | .loop | .scan _ _ none => true
  | _ => false

theorem SchedPc.proc_of_calm (h : pc.calm = true) : pc.proc = none := by
  cases pc <;> simp_all [SchedPc.calm, SchedPc.proc]

theorem SchedPc.calm_of_locks (h : pc.locks = ∅) (hne : pc ≠ .clearProc) : pc.calm = true := by
  cases pc with
  | scan m i o => cases o <;> simp_all [SchedPc.calm, SchedPc.locks, chosenLocks]
  | _ => simp_all [SchedPc.calm, SchedPc.locks]

/-- The chosen process is RUNNABLE until scheduler() makes it RUNNING, and another slot than the
one looked at. -/
def SchedPc.Fits (st : ProcId → ProcState) : SchedPc → Prop
  | .scan _ _ (some p) | .setRunning p => st p = .runnable
  | .choose _ q (some p) | .unlock q _ _ (some p) => q ≠ p ∧ st p = .runnable
  | .setProc p | .swtch p => st p = .running
  | _ => True

theorem SchedPc.fits_of_calm (h : pc.calm = true) : pc.Fits st := by
  cases pc with
  | scan m i o => cases o <;> simp_all [SchedPc.calm, SchedPc.Fits]
  | _ => simp_all [SchedPc.calm, SchedPc.Fits]

/-- scheduler() holds the lock of the process whose state it relies on. -/
theorem SchedPc.Fits.frame (h : pc.Fits st) (hst : ∀ q, .proc q ∈ pc.locks → st' q = st q) :
    pc.Fits st' := by
  cases pc with
  | scan m i o =>
    cases o with
    | none => trivial
    | some p => exact (hst p (by simp [SchedPc.locks, chosenLocks])).trans h
  | choose m q o | unlock q m i o =>
    cases o with
    | none => trivial
    | some p => exact ⟨h.1, (hst p (by simp [SchedPc.locks, chosenLocks])).trans h.2⟩
  | setRunning p | setProc p | swtch p => exact (hst p (by simp [SchedPc.locks])).trans h
  | loop | back p | clearProc => trivial

/-- "Must be called without any p->lock." -/
def NoProc (ls : Finset Lock) : Prop := ∀ p, Lock.proc p ∉ ls

/-- What a stack may have left to execute while its CPU holds exactly the locks ls; s is the state
of its process. A process that is not RUNNING any more only gives up its CPU. -/
def Typed (t : Thread) (s : ProcState) : List Op → Finset Lock → Prop
  | [], ls => match t with
    | .sched pc => ls = pc.locks
    | .proc _ => ls = ∅ ∧ s = .running
  | .acquire l :: k, ls => s = .running ∧ Typed t s k (insert l ls)
  | .release l :: k, ls => (s = .running ∨ l = .wait) ∧ l ∈ ls ∧ Typed t s k (ls.erase l)
  | .sched :: k, ls => s ≠ .running ∧ ∃ p, t = .proc p ∧ ls = {.proc p} ∧ s ≠ .unused ∧
      Typed t .running k ls
  | .setState p s' :: k, ls =>
    s = .running ∧ t = .proc p ∧ .proc p ∈ ls ∧ s' ≠ .unused ∧ Typed t s' k ls
  | .setChan p _ :: k, ls => s = .running ∧ t = .proc p ∧ .proc p ∈ ls ∧ Typed t s k ls
  | .touch _ _ p :: k, ls =>
    s = .running ∧ .proc p ∈ ls ∧ NoProc (ls.erase (.proc p)) ∧ Typed t s k (ls.erase (.proc p))
  | .spawn p :: k, ls | .freeproc p :: k, ls =>
    s = .running ∧ .proc p ∈ ls ∧ Typed t s k ls
  | .yieldIf :: k, ls | .iret :: k, ls => s = .running ∧ ls = ∅ ∧ Typed t s k ls
  | .start _ :: k, ls | .sweep _ _ _ :: k, ls | .reparent _ _ :: k, ls | .wakeupParent _ :: k, ls =>
    s = .running ∧ NoProc ls ∧ Typed t s k ls
  | .restore _ :: k, ls | .tick :: k, ls => s = .running ∧ Typed t s k ls
  | .panic :: _, _ => s = .running

theorem Typed.kerneltrap (h : Typed t .running k ∅) (c : Nat) (irq : Irq) :
    Typed t .running (kerneltrap c irq ++ k) ∅ := by
  cases irq with
  | timer => by_cases hc : c = 0 <;> simp [Interrupt.kerneltrap, clockintr, hc, Typed, NoProc, h]
  | device n ch => simp [Interrupt.kerneltrap, Typed, NoProc, h]

theorem Typed.yield (h : Typed (.proc p) .running k ∅) :
    Typed (.proc p) .running (yield p ++ k) ∅ := by
  simp [Interrupt.yield, Typed, h]

theorem Typed.body {a : Call} {b : Bool} (h : a.allowed p b = true) :
    Typed (.proc p) .running (a.body p) ∅ := by
  cases a with
  | sleep ch lk =>
    have hne : ∀ q, lk ≠ .proc q := by
      rintro q rfl
      cases h
    simp [Call.body, Interrupt.sleep, Typed, Finset.erase_insert_of_ne, (hne _).symm]
  | wakeup ch lk =>
    have hne : ∀ q, lk ≠ .proc q := by
      rintro q rfl
      cases h
    simp [Call.body, Typed, NoProc, (hne _).symm]
  | yield => simp [Call.body, Interrupt.yield, Typed]
  | exit => simp [Call.body, Interrupt.exit, Typed, NoProc, Finset.erase_insert_of_ne]
  | kill pid => simp [Call.body, Typed, NoProc]
  | fork np => simp [Call.body, Typed]
  | wait child => simp [Call.body, Typed]

/-- A process that is not RUNNING any more holds its lock. -/
theorem Typed.own_mem (h : Typed (.proc p) s ops ls) (hs : s ≠ .running) : .proc p ∈ ls := by
  induction ops generalizing ls with
  | nil => exact absurd h.2 hs
  | cons op k ih =>
    cases op with
    | release l => exact Finset.mem_of_mem_erase (ih h.2.2)
    | sched =>
      obtain ⟨-, q, hq, hls, -⟩ := h
      cases hq
      simp [hls]
    | panic => exact absurd h hs
    | _ => exact absurd h.1 hs

end Xv6.Interrupt
