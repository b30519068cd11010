import Xv6.Process.Calls

namespace Xv6.Process.Calls

open Xv6.Framework

variable {k k' : Kernel} {p p' : Proc} {q i : ProcId}

theorem firstUnused_spec {procs : ProcId → Proc} (h : firstUnused procs = some i) :
    (procs i).state = .unused := by
  simpa using List.find?_some h

@[simp] theorem Kernel.set_self (k : Kernel) (i : ProcId) (p : Proc) : (k.set i p).procs i = p := by
  simp [Kernel.set]

theorem Kernel.set_of_ne (k : Kernel) {i j : ProcId} (p : Proc) (h : j ≠ i) :
    (k.set i p).procs j = k.procs j := by
  simp [Kernel.set, h]

def Kernel.bumpPid (k : Kernel) : Kernel := { k with nextpid := int32 (k.nextpid + 1) }

/-- The process that a successful fork by q makes in slot i. -/
def newborn (k : Kernel) (q i : ProcId) : Proc :=
  { (((k.procs i).claim k.nextpid).stamp k.ticks).copyFrom (k.procs q) with
    parent := some q
    state := .runnable }

/-- The kernel around a successful fork by q into slot i. -/
def Kernel.afterFork (k : Kernel) (q i : ProcId) : Kernel :=
  ((if (k.procs q).runsSchedbench then k.bumpPid.countFork else k.bumpPid).bear i).set i
    (newborn k q i)

theorem fork_success (hi : firstUnused k.procs = some i) (hne : i ≠ q) {m : Mem}
    (hm : (m.trapframe && m.pagetable) = true) (hc : m.uvmcopy = true) :
    fork k q m = k.afterFork q i := by
  have hset (p : Proc) : (update k.procs i p) q = k.procs q :=
    update_of_ne hne.symm _ _
  simp only [fork, allocproc, hi, hm, hc, if_true, Kernel.set, hset]
  unfold Kernel.afterFork
  split <;> simp [Kernel.set, Kernel.bear, Kernel.countFork, Kernel.bumpPid, newborn]

theorem ne_of_firstUnused (hq : (k.procs q).state = .running) (hi : firstUnused k.procs = some i) :
    i ≠ q := by
  rintro rfl
  rw [firstUnused_spec hi] at hq
  cases hq

/-- fork finds no slot, gives its slot back, or makes a newborn. -/
theorem fork_cases (hq : (k.procs q).state = .running) (m : Mem) :
    firstUnused k.procs = none ∧ fork k q m = k ∨
    ∃ i, firstUnused k.procs = some i ∧ i ≠ q ∧
      ((∃ p : Proc, p.ofile = (k.procs i).ofile ∧
          p.isBenchmarkProcess = (k.procs i).isBenchmarkProcess ∧
          fork k q m = k.bumpPid.set i (p.freeproc k.ticks)) ∨
        fork k q m = k.afterFork q i) := by
  cases hi : firstUnused k.procs with
  | none => exact .inl ⟨rfl, by simp [fork, allocproc, hi]⟩
  | some i =>
    have hne := ne_of_firstUnused hq hi
    refine .inr ⟨i, rfl, hne, ?_⟩
    by_cases hm : (m.trapframe && m.pagetable) = true
    · by_cases hc : m.uvmcopy = true
      · exact .inr (fork_success hi hne hm hc)
      · left
        refine ⟨((k.procs i).claim k.nextpid).stamp k.ticks, rfl, rfl, ?_⟩
        simp [fork, allocproc, hi, hm, hc, Kernel.set, Kernel.bumpPid]
    · left
      refine ⟨(k.procs i).claim k.nextpid, rfl, rfl, ?_⟩
      simp [fork, allocproc, hi, hm, Kernel.bumpPid]

def Live (p : Proc) : Prop := p.state ≠ .unused ∧ p.state ≠ .zombie

instance (p : Proc) : Decidable (Live p) := inferInstanceAs (Decidable (_ ∧ _))

/-- What a step does to a slot in which it neither starts nor ends a process. -/
structure Mild (p p' : Proc) : Prop where
  flag : p'.isBenchmarkProcess = p.isBenchmarkProcess
  live : Live p → Live p'
  dead : ¬ Live p → p'.state = p.state ∧ p'.chan = p.chan ∧ p'.xstate = p.xstate ∧
    p'.ofile = p.ofile

theorem Mild.refl (p : Proc) : Mild p p := ⟨rfl, id, fun _ => ⟨rfl, rfl, rfl, rfl⟩⟩

theorem Mild.live_iff (h : Mild p p') : Live p' ↔ Live p := by
  constructor
  · intro hl
    by_contra hn
    have hs := (h.dead hn).1
    rw [Live, hs] at hl
    exact hn hl
  · exact h.live

theorem Mild.trans {p'' : Proc} (h : Mild p p') (h' : Mild p' p'') : Mild p p'' := by
  constructor
  · rw [h'.flag, h.flag]
  · intro hl
    exact h'.live (h.live hl)
  · intro hn
    obtain ⟨hs, hc, hx, ho⟩ := h.dead hn
    obtain ⟨hs', hc', hx', ho'⟩ := h'.dead fun hl => hn (h.live_iff.mp hl)
    exact ⟨hs'.trans hs, hc'.trans hc, hx'.trans hx, ho'.trans ho⟩

theorem Mild.of_live (hf : p'.isBenchmarkProcess = p.isBenchmarkProcess) (hl : Live p)
    (hl' : Live p') : Mild p p' :=
  ⟨hf, fun _ => hl', fun hn => absurd hl hn⟩

theorem live_of_running (h : p.state = .running) : Live p := by simp [Live, h]

theorem mild_wakeup (p : Proc) (ch : Chan) : Mild p (p.wakeup ch) := by
  unfold Proc.wakeup
  split
  case isTrue h => exact Mild.of_live rfl (by simp [Live, h.1]) (by simp [Live])
  case isFalse => exact Mild.refl p

theorem mild_adopt (p : Proc) (q : ProcId) : Mild p (p.adopt q) := by
  unfold Proc.adopt
  split
  · exact ⟨rfl, id, fun _ => ⟨rfl, rfl, rfl, rfl⟩⟩
  · exact Mild.refl p

theorem mild_reparent (procs : ProcId → Proc) (q i : ProcId) :
    Mild (procs i) (reparent procs q i) := by
  unfold reparent
  split
  · exact (mild_adopt (procs i) q).trans (mild_wakeup _ _)
  · exact Mild.refl _

theorem mild_wakeupParent (procs : ProcId → Proc) (q i : ProcId) :
    Mild (procs i) (wakeupParent procs q i) := by
  unfold wakeupParent
  cases (procs q).parent with
  | some p => exact mild_wakeup _ _
  | none => exact Mild.refl _

theorem mild_kill (p : Proc) : Mild p p.kill := by
  unfold Proc.kill
  by_cases hs : p.state = .sleeping
  · exact Mild.of_live rfl (by simp [Live, hs]) (by simp [Live, hs])
  · rw [if_neg hs]
    exact ⟨rfl, id, fun _ => ⟨rfl, rfl, rfl, rfl⟩⟩

theorem mild_updateTime (p : Proc) : Mild p p.updateTime := by
  unfold Proc.updateTime
  split
  · exact ⟨rfl, id, fun _ => ⟨rfl, rfl, rfl, rfl⟩⟩
  · exact Mild.refl p

theorem reparent_ofile (procs : ProcId → Proc) (q i : ProcId) :
    (reparent procs q i).ofile = (procs i).ofile := by
  unfold reparent
  split
  · simp [wakeup]
  · rfl

theorem wakeupParent_ofile (procs : ProcId → Proc) (q i : ProcId) :
    (wakeupParent procs q i).ofile = (procs i).ofile := by
  unfold wakeupParent
  cases (procs q).parent with
  | some p => simp [wakeup]
  | none => rfl

theorem exitTable_self (k : Kernel) (q : ProcId) (status : Int) :
    (exitTable k q status q).state = .zombie ∧
      (exitTable k q status q).isBenchmarkProcess = (k.procs q).isBenchmarkProcess ∧
      (exitTable k q status q).ofile = fun _ => none := by
  have hflag := ((mild_reparent (update k.procs q (exiting k q)) q q).trans
    (mild_wakeupParent _ q q)).flag
  rw [update_self] at hflag
  unfold exitTable
  rw [update_self]
  refine ⟨rfl, hflag, ?_⟩
  rw [wakeupParent_ofile, reparent_ofile, update_self]
  rfl

theorem mild_exitTable (k : Kernel) {q i : ProcId} (status : Int) (h : i ≠ q) :
    Mild (k.procs i) (exitTable k q status i) := by
  have hother : Mild (k.procs i) (update k.procs q (exiting k q) i) := by
    rw [update_of_ne h]
    exact Mild.refl _
  unfold exitTable
  rw [update_of_ne h]
  exact (hother.trans (mild_reparent _ q i)).trans (mild_wakeupParent _ q i)

/-- The step starts and ends no process and leaves the benchmark counters alone. -/
structure Quiet (k k' : Kernel) : Prop where
  procs : ∀ i, Mild (k.procs i) (k'.procs i)
  bench : k'.bench = k.bench
  ledger : k'.ledger = k.ledger
  console : k'.console = k.console

theorem quiet_refl (k : Kernel) : Quiet k k := ⟨fun _ => Mild.refl _, rfl, rfl, rfl⟩

theorem quiet_set (h : Mild (k.procs i) p) : Quiet k (k.set i p) := by
  refine ⟨fun j => ?_, rfl, rfl, rfl⟩
  by_cases hj : j = i
  · subst hj
    simpa using h
  · rw [k.set_of_ne p hj]
    exact Mild.refl _

theorem quiet_own {f : Proc → Proc} (h : own k q f = some k')
    (hf : ∀ p, (f p).isBenchmarkProcess = p.isBenchmarkProcess)
    (hl : ∀ p, p.state = .running → Live (f p)) : Quiet k k' := by
  unfold own at h
  split at h
  case isTrue hr =>
    cases h
    exact quiet_set (Mild.of_live (hf _) (live_of_running hr) (hl _ hr))
  case isFalse => simp at h

/-- wait frees a zombie or is quiet. -/
theorem wait_cases (hq : (k.procs q).state = .running) (c : Bool) :
    Quiet k (wait k q c) ∨ ∃ i, (k.procs i).state = .zombie ∧
      wait k q c = k.set i ((k.procs i).freeproc k.ticks) := by
  unfold wait
  dsimp only
  split
  case h_1 i hi =>
    have hz := List.find?_some hi
    simp only [Bool.and_eq_true, decide_eq_true_eq] at hz
    split
    · exact .inr ⟨i, hz.2, rfl⟩
    · exact .inl (quiet_refl k)
  case h_2 =>
    left
    split
    · exact quiet_set (Mild.of_live rfl (live_of_running hq) (by simp [Live]))
    · exact quiet_refl k

inductive StepCases (k : Kernel) : Call → Kernel → Prop
  | fork (q : ProcId) (m : Mem) : (k.procs q).state = .running →
      StepCases k (.fork q m) (Calls.fork k q m)
  | exit (q : ProcId) (status : Int) : (k.procs q).state = .running →
      StepCases k (.exit q status) (Calls.exit k q status)
  | reap (q i : ProcId) (c : Bool) : (k.procs i).state = .zombie →
      StepCases k (.wait q c) (k.set i ((k.procs i).freeproc k.ticks))
  | schedstats (mode : Int) : StepCases k (.schedstats mode) (Calls.schedstats k mode)
  | quiet (a : Call) (k' : Kernel) : Quiet k k' → StepCases k a k'

theorem next_cases {a : Call} (h : next k a = some k') : StepCases k a k' := by
  cases a with
  | fork q m =>
    simp only [next] at h
    split at h
    case isTrue hq =>
      cases h
      exact .fork q m hq
    case isFalse => simp at h
  | exit q status =>
    simp only [next] at h
    split at h
    case isTrue hq =>
      cases h
      exact .exit q status hq.1
    case isFalse => simp at h
  | wait q c =>
    simp only [next] at h
    split at h
    case isTrue hq =>
      cases h
      rcases wait_cases hq c with hw | ⟨i, hz, hw⟩
      · exact .quiet _ _ hw
      · rw [hw]
        exact .reap q i c hz
    case isFalse => simp at h
  | schedstats mode =>
    cases h
    exact .schedstats mode
  | kill pid =>
    cases h
    apply StepCases.quiet
    unfold kill
    cases byPid k.procs pid with
    | some i => exact quiet_set (mild_kill _)
    | none => exact quiet_refl k
  | setpriority pid prio =>
    cases h
    apply StepCases.quiet
    unfold setpriority
    cases byPid k.procs pid with
    | some i => exact quiet_set ⟨rfl, id, fun _ => ⟨rfl, rfl, rfl, rfl⟩⟩
    | none => exact quiet_refl k
  | dispatch p =>
    simp only [next] at h
    split at h
    case isTrue hr =>
      cases h
      apply StepCases.quiet
      apply quiet_set
      exact Mild.of_live rfl (by simp [Live, hr]) (by simp [Live, Proc.dispatch])
    case isFalse => simp at h
  | exec q name =>
    rw [next] at h
    exact .quiet _ _ (quiet_own h (fun _ => rfl) fun _ => live_of_running)
  | setkilled q =>
    rw [next] at h
    exact .quiet _ _ (quiet_own h (fun _ => rfl) fun _ => live_of_running)
  | setFile q fd f =>
    rw [next] at h
    exact .quiet _ _ (quiet_own h (fun _ => rfl) fun _ => live_of_running)
  | chdir q ip =>
    rw [next] at h
    exact .quiet _ _ (quiet_own h (fun _ => rfl) fun _ => live_of_running)
  | yield q =>
    rw [next] at h
    exact .quiet _ _ (quiet_own h (fun _ => rfl) fun _ _ => by simp [Live])
  | sleep q ch =>
    rw [next] at h
    exact .quiet _ _ (quiet_own h (fun _ => rfl) fun _ _ => by simp [Live])
  | wakeup ch =>
    cases h
    exact .quiet _ _ ⟨fun i => mild_wakeup _ ch, rfl, rfl, rfl⟩
  | clockintr =>
    cases h
    exact .quiet _ _ ⟨fun i => (mild_updateTime _).trans (mild_wakeup _ .ticks), rfl, rfl, rfl⟩

end Xv6.Process.Calls
