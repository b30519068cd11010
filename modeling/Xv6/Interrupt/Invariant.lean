import Xv6.Interrupt.Typing

namespace Xv6.Interrupt

open Xv6.Framework Xv6.Process

def Thread.on : Thread → Option ProcId
  | .sched _ => none
  | .proc p => some p

/-- The process that is RUNNING already but not yet on its CPU. -/
def Thread.starting : Thread → Option ProcId
  | .sched (.setProc p) | .sched (.swtch p) => some p
  | _ => none

theorem Thread.on_eq_some {t : Thread} {p : ProcId} : t.on = some p ↔ t = .proc p := by
  cases t <;> simp [Thread.on]

theorem Thread.on_of_starting {t : Thread} {p : ProcId} (h : t.starting = some p) :
    t.on = none := by
  cases t with
  | sched pc => rfl
  | proc q => cases h

def own (st : ProcId → ProcState) : Thread → ProcState
  | .sched _ => .running
  | .proc p => st p

/-- noff counts the locks that the CPU holds, and interrupts are off while it holds one. -/
structure Held (x : Cpu) (ls : Finset Lock) : Prop where
  noff : x.noff = ls.card
  intr : x.intr = true → ls = ∅

/-- What a CPU executes fits its struct cpu, the locks it holds and the states of the processes. -/
structure Good (st : ProcId → ProcState) (proc : Option ProcId) (context run : Context)
    (ls : Finset Lock) : Prop where
  typed : Typed run.thread (own st run.thread) run.ops ls
  field : ∀ pc, run.thread = .sched pc → pc = .clearProc ∨ proc = pc.proc
  calm : ∀ pc, run.thread = .sched pc → run.ops ≠ [] → pc.calm = true
  fits : ∀ pc, run.thread = .sched pc → pc.Fits st
  busy : ∀ p, run.thread = .proc p → proc = some p ∧ context = ⟨.sched (.back p), []⟩

section Cpu

variable {st st' : ProcId → ProcState} {x : Cpu} {ls ls' : Finset Lock} {l : Lock}
  {proc : Option ProcId} {context run : Context} {t : Thread} {op : Op} {k ops : List Op}
  {pc : SchedPc} {p q : ProcId}

theorem Held.goto (h : Held x ls) : Held { x with run := run } ls := ⟨h.noff, h.intr⟩

theorem Held.pushOff (h : Held x ls) (hl : l ∉ ls) : Held x.pushOff (insert l ls) where
  noff := by rw [Finset.card_insert_of_notMem hl, ← h.noff, Cpu.pushOff]
  intr h := by simp [Cpu.pushOff] at h

theorem Held.popOff (h : Held x ls) (hl : l ∈ ls) : Held x.popOff (ls.erase l) where
  noff := by rw [Finset.card_erase_of_mem hl, ← h.noff, Cpu.popOff]
  intr hi := by
    have hn : x.noff = 1 := by
      simp only [Cpu.popOff, Bool.and_eq_true, decide_eq_true_eq] at hi
      exact hi.1
    have hc : (ls.erase l).card = 0 := by
      rw [Finset.card_erase_of_mem hl, ← h.noff, hn]
    exact Finset.card_eq_zero.mp hc

theorem Good.statement (h : Good st proc context ⟨t, op :: k⟩ ls) (ht : Typed t (own st' t) ops ls') :
    Good st' proc context ⟨t, ops⟩ ls' where
  typed := ht
  field := h.field
  calm pc hpc _ := h.calm pc hpc (List.cons_ne_nil _ _)
  fits pc hpc := SchedPc.fits_of_calm (h.calm pc hpc (List.cons_ne_nil _ _))
  busy := h.busy

theorem Good.scheduler (hl : ls = pc.locks) (hp : pc = .clearProc ∨ proc = pc.proc)
    (hf : pc.Fits st) : Good st proc context ⟨.sched pc, []⟩ ls where
  typed := hl
  field _ h := by cases h; exact hp
  calm _ _ h := absurd rfl h
  fits _ h := by cases h; exact hf
  busy _ h := by cases h

theorem Good.process (ht : run.thread = .proc p) (hty : Typed (.proc p) (st p) run.ops ls)
    (hproc : proc = some p) (hcontext : context = ⟨.sched (.back p), []⟩) :
    Good st proc context run ls where
  typed := by
    rw [ht]
    exact hty
  field _ h := by simp [ht] at h
  calm _ h := by simp [ht] at h
  fits _ h := by simp [ht] at h
  busy q h := by
    obtain rfl : p = q := by simpa [ht] using h
    exact ⟨hproc, hcontext⟩

/-- A process on a CPU that does not hold its lock is RUNNING. -/
theorem Good.running (h : Good st proc context run ls) (ht : run.thread = .proc p)
    (hp : .proc p ∉ ls) : st p = .running := by
  by_contra hs
  have hty := h.typed
  rw [ht] at hty
  exact hp (hty.own_mem hs)

/-- An interrupt taken in scheduler() finds c->proc zero. -/
theorem Good.idle (h : Good st proc context run ls) (ht : run.thread = .sched pc)
    (ho : run.ops ≠ []) : proc = none := by
  have hc := h.calm pc ht ho
  rcases h.field pc ht with rfl | hp
  · cases hc
  · rw [hp, SchedPc.proc_of_calm hc]

theorem Good.locks (h : Good st proc context run ls) (ht : run.thread = .sched pc)
    (hc : pc.calm = false) : ls = pc.locks := by
  have ho : run.ops = [] := by
    by_contra hne
    rw [h.calm pc ht hne] at hc
    cases hc
  have hty := h.typed
  rw [ho, ht] at hty
  exact hty

theorem Good.calm_of_free (h : Good st proc context run ∅) (ht : run.thread = .sched pc)
    (hne : pc ≠ .clearProc) : pc.calm = true := by
  by_contra hc
  exact hc (SchedPc.calm_of_locks (h.locks ht (eq_false_of_ne_true hc)).symm hne)

theorem Good.starting_mem (h : Good st proc context run ls)
    (hs : run.thread.starting = some p) : .proc p ∈ ls := by
  unfold Thread.starting at hs
  split at hs
  case h_1 q ht | h_2 q ht =>
    obtain rfl : q = p := Option.some_inj.mp hs
    rw [h.locks ht rfl]
    simp [SchedPc.locks]
  case h_3 => cases hs

/-- The CPU holds the locks of the processes whose states matter to it. -/
theorem Good.frame (h : Good st proc context run ls)
    (hst : ∀ q, st' q = st q ∨ .proc q ∉ ls ∧ run.thread ≠ .proc q) :
    Good st' proc context run ls where
  typed := by
    have hown : own st' run.thread = own st run.thread := by
      cases ht : run.thread with
      | sched pc => rfl
      | proc p => exact (hst p).resolve_right fun hp => hp.2 ht
    rw [hown]
    exact h.typed
  field := h.field
  calm := h.calm
  fits pc hpc := by
    by_cases hc : pc.calm = true
    · exact SchedPc.fits_of_calm hc
    · apply (h.fits pc hpc).frame
      intro q hq
      rw [← h.locks hpc (eq_false_of_ne_true hc)] at hq
      exact (hst q).resolve_right fun hn => hn.1 hq
  busy := h.busy

end Cpu

def World.state (w : World) (p : ProcId) : ProcState := (w.procs p).state

/-- A process that is not on a CPU goes on with its lock held. -/
def Saved (w : World) (p : ProcId) : Prop :=
  (w.context p).thread = .proc p ∧ Typed (.proc p) .running (w.context p).ops {.proc p}

/-- The invariant of the whole machine, where H c is the set of the locks that CPU c holds. -/
structure Inv (w : World) (H : Nat → Finset Lock) : Prop where
  held : ∀ c, Held (w.cpu c) (H c)
  good : ∀ c, Good w.state (w.cpu c).proc (w.cpu c).context (w.cpu c).run (H c)
  lock : ∀ l c, w.lock l = some c ↔ l ∈ H c
  uniq : ∀ c d p, (w.cpu c).run.thread = .proc p → (w.cpu d).run.thread = .proc p → c = d
  off : ∀ c d p, (w.cpu c).run.thread.starting = some p → (w.cpu d).run.thread ≠ .proc p
  saved : ∀ p, w.state p ≠ .unused → (∀ c, (w.cpu c).run.thread ≠ .proc p) → Saved w p

section Inv

variable {w w' : World} {H : Nat → Finset Lock} {c d : Nat} {x : Cpu} {ls : Finset Lock}
  {p q : ProcId} {l : Lock}

theorem Inv.disjoint (h : Inv w H) (hc : l ∈ H c) (hd : l ∈ H d) : c = d :=
  Option.some_inj.mp (((h.lock l c).mpr hc).symm.trans ((h.lock l d).mpr hd))

/-- A process that is not RUNNING is on no CPU other than one that holds its lock. -/
theorem Inv.not_on (h : Inv w H) (hp : .proc p ∈ H c) (hs : w.state p ≠ .running)
    (ht : (w.cpu d).run.thread = .proc p) : c = d := by
  by_contra hne
  exact hs ((h.good d).running ht fun hd => hne (h.disjoint hp hd))

/-- A step of CPU c that changes the state of no process but one whose lock it holds. -/
theorem Inv.step (h : Inv w H) (hcpu : w'.cpu = Function.update w.cpu c x)
    (hheld : Held x ls) (hgood : Good w'.state x.proc x.context x.run ls)
    (hlock : ∀ l d, w'.lock l = some d ↔ l ∈ Function.update H c ls d)
    (hon : x.run.thread.on = (w.cpu c).run.thread.on)
    (hst : ∀ q, w'.state q = w.state q ∨
      .proc q ∈ H c ∧ (w.state q ≠ .running ∨ (w.cpu c).run.thread = .proc q))
    (hstart : ∀ q, x.run.thread.starting = some q → (w.cpu c).run.thread.starting = some q ∨
      .proc q ∈ H c ∧ w.state q ≠ .running)
    (hsaved : ∀ q, w'.state q ≠ .unused →
      w.state q ≠ .unused ∧ w'.context q = w.context q ∨ Saved w' q) :
    Inv w' (Function.update H c ls) := by
  have hat (d : Nat) : w'.cpu d = if d = c then x else w.cpu d := by
    rw [hcpu, Function.update_apply]
  have hthread (d : Nat) (q : ProcId) :
      (w'.cpu d).run.thread = .proc q ↔ (w.cpu d).run.thread = .proc q := by
    rw [← Thread.on_eq_some, ← Thread.on_eq_some, hat]
    split
    · subst d
      rw [hon]
    · rfl
  have hframe (d : Nat) (hd : d ≠ c) (q : ProcId) :
      w'.state q = w.state q ∨ .proc q ∉ H d ∧ (w.cpu d).run.thread ≠ .proc q := by
    refine (hst q).imp_right fun ⟨hq, hs⟩ => ⟨fun hqd => hd (h.disjoint hqd hq), fun ht => ?_⟩
    rcases hs with hs | hs
    · exact hd (h.not_on hq hs ht).symm
    · exact hd (h.uniq _ _ q ht hs)
  refine ⟨fun d => ?_, fun d => ?_, hlock, ?_, ?_, ?_⟩
  · rw [hat, Function.update_apply]
    split
    · exact hheld
    · exact h.held d
  · rw [hat, Function.update_apply]
    split
    · exact hgood
    case isFalse hd => exact (h.good d).frame (hframe d hd)
  · intro d e q hd he
    exact h.uniq d e q ((hthread d q).mp hd) ((hthread e q).mp he)
  · intro d e q hd he
    rw [hthread] at he
    rw [hat] at hd
    split at hd
    case isFalse => exact h.off d e q hd he
    case isTrue =>
      rcases hstart q hd with hs | ⟨hq, hs⟩
      · exact h.off c e q hs he
      · obtain rfl := h.not_on hq hs he
        rw [← Thread.on_eq_some, ← hon, Thread.on_of_starting hd] at he
        cases he
  · intro q hq hoff
    rcases hsaved q hq with ⟨hs, hctx⟩ | hs
    · have hold := h.saved q hs fun d hd => hoff d ((hthread d q).mpr hd)
      rw [Saved, hctx]
      exact hold
    · exact hs

end Inv

end Xv6.Interrupt
