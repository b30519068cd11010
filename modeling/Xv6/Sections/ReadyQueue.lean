import Xv6.Sections.FamilySteps
import Xv6.Sections.Times
import Xv6.Sections.Uniprocessor
import Mathlib.Data.List.DropRight

set_option maxRecDepth 8192

namespace Xv6.Sections

open Xv6.Framework Xv6.Process

variable {w w' : World} {c : Nat} {p q r : ProcId} {k : Pc} {x : Proc} {l : Label}
  {e : Event World Label} {tr lf : List (Event World Label)}

/-- allocproc takes slot p. -/
def allocates (p : ProcId) (e : Event World Label) : Bool :=
  decide ((e.pre.procs p).state = .unused) && decide ((e.post.procs p).state ≠ .unused)

def life (p : ProcId) (tr : List (Event World Label)) : List (Event World Label) :=
  tr.rtakeWhile fun e => !allocates p e

def visits (p : ProcId) (e : Event World Label) : Bool :=
  decide (e.pre.clock = .update p) && decide (e.post.clock = .update (p + 1))

/-- update_time finds the process of slot p in state s. -/
def found (p : ProcId) (s : ProcState) (e : Event World Label) : Bool :=
  visits p e && decide ((e.pre.procs p).state = s)

theorem life_concat (p : ProcId) (tr : List (Event World Label)) (e : Event World Label) :
    life p (tr ++ [e]) = if allocates p e then [] else life p tr ++ [e] := by
  unfold life
  rw [List.rtakeWhile_concat]
  cases allocates p e <;> rfl

/-- Whether the running update_time has still to look at slot p. -/
def Clock.pending : Clock → ProcId → Nat
  | .idle, _ => 0
  | .update j, p => if j ≤ p.val then 1 else 0

/-- The times of the process in slot p, in terms of the steps since it entered the table. -/
structure Lived (w : World) (p : ProcId) (lf : List (Event World Label)) : Prop where
  age : (w.procs p).ctime + lf.countP ticking = w.ticks
  ran : (w.procs p).rtime = lf.countP (found p .running)
  seen : lf.countP (visits p) + w.clock.pending p = lf.countP ticking
  exit : ∀ s, w.pc p = .exitWaiting s → (w.procs p).turnaroundTime = lf.countP ticking

theorem countP_concat (f : Event World Label → Bool) (lf : List (Event World Label))
    (e : Event World Label) : (lf ++ [e]).countP f = lf.countP f + if f e then 1 else 0 := by
  rw [List.countP_append, List.countP_singleton]

theorem Lived.quiet (hv : Lived w p lf) (hb : w.ticks < 2 ^ 32)
    (ht : w'.ticks = w.ticks ∧ w'.clock = w.clock) (hk : Kept w w' p) (hs : Steady w w' p) :
    Lived w' p (lf ++ [⟨w, l, w'⟩]) := by
  have h1 : ticking ⟨w, l, w'⟩ = false := by
    cases hc : w.clock <;> simp [ticking, ht.2, hc]
  have h2 : visits p ⟨w, l, w'⟩ = false := by
    cases hc : w.clock <;> simp [visits, ht.2, hc]
    omega
  have hage := hv.age
  constructor
  · rw [countP_concat, h1, hk.ctime, ht.1]
    exact hage
  · rw [hs.rtime, hv.ran]
    simp [found, h2]
  · rw [countP_concat, countP_concat, h1, h2, ht.2]
    exact hv.seen
  · intro s hpc
    rw [countP_concat, h1]
    rcases hs.exit s hpc with ⟨hold, -, heq⟩ | ⟨-, heq⟩
    · rw [heq]
      exact hv.exit s hold
    · rw [heq, sub64_of_le (by omega) (by omega), if_neg Bool.false_ne_true]
      omega

theorem not_exitWaiting (hl : Locks w) (hs : Solo w) (hi : w.interruptible = true) (s : Int) :
    w.pc p ≠ .exitWaiting s := by
  intro hpc
  have hrun := hl.running (p := p) (by simp [hpc, Pc.holdsOwn])
  rw [World.interruptible, hs.running hl hrun] at hi
  simp [hpc, Pc.preemptible] at hi

theorem Lived.tick (hv : Lived w p lf) (hn : w.ticks + 1 < 2 ^ 32) (hc : w.clock = .idle)
    (hx : ∀ s, w.pc p ≠ .exitWaiting s) :
    Lived { w with ticks := (w.ticks + 1) % 2 ^ 32, clock := .update 0 } p
      (lf ++ [⟨w, l, { w with ticks := (w.ticks + 1) % 2 ^ 32, clock := .update 0 }⟩]) := by
  have h1 := hv.age
  have h2 := hv.seen
  rw [hc] at h2
  constructor
  · simp only [countP_concat, ticking, hc]
    simp
    omega
  · simp only [countP_concat, found, visits]
    simpa using hv.ran
  · simp only [countP_concat, ticking, visits, hc]
    simpa [Clock.pending] using h2
  · intro s hs
    exact absurd hs (hx s)

/-- update_time has found a process RUNNING at most as often as ticks was incremented. -/
theorem Lived.rtime_le (hv : Lived w p lf) : (w.procs p).rtime ≤ w.ticks := by
  have hle : lf.countP (found p .running) ≤ lf.countP (visits p) :=
    List.countP_mono_left fun e _ he => by
      rw [found, Bool.and_eq_true] at he
      exact he.1
  have h1 := hv.age
  have h2 := hv.seen
  rw [hv.ran]
  omega

theorem Lived.update (hv : Lived w p lf) (hb : w.ticks < 2 ^ 32) (hc : w.clock = .update q) :
    Lived { w.setProc q (w.procs q).updateTime with clock := .update (q + 1) } p
      (lf ++ [⟨w, l, { w.setProc q (w.procs q).updateTime with clock := .update (q + 1) }⟩]) := by
  have hr := hv.rtime_le
  have hran := hv.ran
  have hseen := hv.seen
  have hp : (w.setProc q (w.procs q).updateTime).procs p =
      if p = q then (w.procs q).updateTime else w.procs p := setProc_procs ..
  have hv' : visits p ⟨w, l,
      { w.setProc q (w.procs q).updateTime with clock := .update (q + 1) }⟩ = decide (p = q) := by
    by_cases h : p = q
    · simp [visits, hc, h]
    · have hne : q.val ≠ p.val := fun he => h (Fin.ext he.symm)
      simp [visits, h, hne]
  rw [hc, Clock.pending] at hseen
  constructor
  · rw [countP_concat]
    have hct : ((w.setProc q (w.procs q).updateTime).procs p).ctime = (w.procs p).ctime := by
      rw [hp]
      split
      case isTrue h => rw [h, Proc.updateTime_ctime]
      case isFalse => rfl
    simp only [ticking]
    rw [hct]
    simpa using hv.age
  · rw [countP_concat]
    simp only [found]
    grind [Proc.updateTime]
  · rw [countP_concat, countP_concat]
    simp only [ticking, Clock.pending]
    grind
  · intro s hs
    rw [countP_concat]
    simp only [ticking]
    have := hv.exit s hs
    grind [Proc.updateTime]

theorem Lived.updateEnd (hv : Lived w p lf) {i : Nat} (hc : w.clock = .update i)
    (hi : NPROC ≤ i) :
    Lived { w with clock := .idle } p (lf ++ [⟨w, l, { w with clock := .idle }⟩]) := by
  have hseen := hv.seen
  constructor
  · simpa [ticking] using hv.age
  · simpa [found, visits] using hv.ran
  · rw [hc, Clock.pending, if_neg (by omega)] at hseen
    simpa [ticking, visits, Clock.pending] using hseen
  · intro s hs
    simpa [ticking] using hv.exit s hs

theorem Lived.start (he : Entered w w' p) (hc : w.clock = .idle) : Lived w' p [] where
  age := by rw [he.ctime, he.ticks]; rfl
  ran := he.rtime
  seen := by rw [he.clock, hc]; rfl
  exit s hs := by
    rw [he.pc] at hs
    cases hs

theorem lived_step (hv : Lived w p lf) (hl : Locks w) (hs : Solo w)
    (hp : (w.procs p).state ≠ .unused) (hp' : (w'.procs p).state ≠ .unused)
    (h : next w l = some w') (hb : w.ticks < 2 ^ 32)
    (hn : ticking ⟨w, l, w'⟩ = true → w.ticks + 1 < 2 ^ 32) :
    Lived w' p (lf ++ [⟨w, l, w'⟩]) := by
  have hstep := next_cases h
  have hk : Kept w w' p :=
    (record_step hl hstep hp').resolve_right fun he => hp he.1.free
  cases hstep with
  | sched h => exact hv.quiet hb (ticks_schedSection h) hk (steady_schedSection h p)
  | proc hc h =>
    refine hv.quiet hb (ticks_section h) hk ?_
    exact (steady_section hl hc h p).resolve_right fun he => hp he.free
  | tick hc =>
    exact hv.tick (hn (by simp [ticking, hc])) hc
      (not_exitWaiting hl hs (tick_interruptible h hc))
  | update hc => exact hv.update hb hc
  | updateEnd hc hi => exact hv.updateEnd hc hi
  | wakeup => exact hv.quiet hb ⟨rfl, rfl⟩ hk (steady_wakeup p)
  | setMode => exact hv.quiet hb ⟨rfl, rfl⟩ hk (.same rfl fun _ h => h)
  | setPriority => exact hv.quiet hb ⟨rfl, rfl⟩ hk (steady_setPriority p)

/-- Where the run of a single CPU stands. -/
structure Ledger (w : World) (tr : List (Event World Label)) : Prop where
  locks : Locks w
  solo : Solo w
  ticks : w.ticks = tr.countP ticking
  lived : ∀ p, (w.procs p).state ≠ .unused → Lived w p (life p tr)

theorem ledger_step (hg : Ledger w tr) (h : next w l = some w')
    (ho : onCpu0 ⟨w, l, w'⟩ = true) (hb : w.ticks < 2 ^ 32)
    (hn : ticking ⟨w, l, w'⟩ = true → w.ticks + 1 < 2 ^ 32) :
    Ledger w' (tr ++ [⟨w, l, w'⟩]) := by
  have hstep := next_cases h
  refine ⟨locks_step hg.locks hstep, solo_step hg.solo hstep ho, ?_, fun p hp => ?_⟩
  · rw [ticks_step hstep, countP_concat, ← hg.ticks]
    split
    case isTrue ht => exact Nat.mod_eq_of_lt (hn ht)
    case isFalse => rfl
  · rw [life_concat]
    rcases record_step hg.locks hstep hp with hk | ⟨he, c, a, -, rfl, -⟩
    · have ha : allocates p ⟨w, l, w'⟩ = false := by simp [allocates, hk.live]
      rw [ha]
      exact lived_step (hg.lived p hk.live) hg.locks hg.solo hk.live hp h hb hn
    · have ha : allocates p ⟨w, .proc c a, w'⟩ = true := by
        simp [allocates, he.free, he.used]
      obtain rfl : c = 0 := of_decide_eq_true ho
      rw [ha]
      exact .start he (clock_idle h (.inr ⟨a, rfl⟩))

theorem ledger_boot : Ledger boot [] where
  locks := locks_boot
  solo := solo_boot
  ticks := rfl
  lived p hp := by
    obtain rfl := boot_unused hp
    exact ⟨rfl, rfl, rfl, fun s hs => by cases hs⟩

theorem ledger_run (h : Path next boot tr w) (ho : ∀ e ∈ tr, onCpu0 e = true)
    (hn : tr.countP ticking < 2 ^ 32) : Ledger w tr := by
  induction h with
  | nil => exact ledger_boot
  | @snoc t u tr a _ hs ih =>
    rw [countP_concat] at hn
    have hg := ih (fun e he => ho e (by simp [he])) (by omega)
    have ht := hg.ticks
    refine ledger_step hg hs (ho _ (by simp)) (by omega) fun hk => ?_
    rw [hk, if_pos rfl] at hn
    omega

/-- The times that exit reports: the ticks since the process was created, and those at which
update_time found it in the ready queue. -/
structure ReportsReady (p : ProcId) (l : List (Event World Label)) (e : Event World Label) :
    Prop where
  turnaround : (e.post.procs p).turnaroundTime = (life p l).countP ticking
  waiting : (e.post.procs p).waitingTime = (life p l).countP (found p .runnable)

instance (p : ProcId) (l : List (Event World Label)) (e : Event World Label) :
    Decidable (ReportsReady p l e) :=
  decidable_of_iff (_ ∧ _) ⟨fun h => ⟨h.1, h.2⟩, fun h => ⟨h.turnaround, h.waiting⟩⟩

/-- Exit has just computed the waiting time of p. -/
def reports (p : ProcId) (e : Event World Label) : Prop :=
  ∃ s, e.pre.pc p = .exitWaiting s ∧ e.post.pc p ≠ .exitWaiting s

/-- update_time never finds the process in a state other than RUNNING and RUNNABLE. -/
def AlwaysReady (p : ProcId) (lf : List (Event World Label)) : Prop :=
  ∀ e ∈ lf, visits p e = true →
    (e.pre.procs p).state = .running ∨ (e.pre.procs p).state = .runnable

/-- Each visit finds the process RUNNING, RUNNABLE or in another state. -/
theorem visits_split (p : ProcId) (lf : List (Event World Label)) :
    lf.countP (found p .running) + lf.countP (found p .runnable) ≤ lf.countP (visits p) ∧
    (lf.countP (found p .running) + lf.countP (found p .runnable) = lf.countP (visits p) ↔
      AlwaysReady p lf) := by
  induction lf with
  | nil => simp [AlwaysReady]
  | cons e lf ih =>
    have hcons : AlwaysReady p (e :: lf) ↔ (visits p e = true →
        (e.pre.procs p).state = .running ∨ (e.pre.procs p).state = .runnable) ∧
        AlwaysReady p lf := by simp [AlwaysReady]
    rw [hcons, ← ih.2]
    simp only [List.countP_cons, found]
    have hle := ih.1
    by_cases hv : visits p e = true
    · by_cases h1 : (e.pre.procs p).state = .running
      · simp [h1]
        omega
      · by_cases h2 : (e.pre.procs p).state = .runnable <;> simp [hv, h1, h2] <;> omega
    · simpa [hv] using hle

/-- exit runs outside clockintr. -/
theorem reports_idle (hs : next w l = some w') (ho : onCpu0 ⟨w, l, w'⟩ = true)
    (he : reports p ⟨w, l, w'⟩) : w.clock = .idle := by
  obtain ⟨s, hpc, hpc'⟩ := he
  have hstep := next_cases hs
  cases hstep with
  | proc =>
    obtain rfl := of_decide_eq_true ho
    exact clock_idle hs (.inr ⟨_, rfl⟩)
  | sched h => cases h <;> exact absurd hpc hpc'
  | _ => exact absurd hpc hpc'

/-- On a single CPU, exit reports the right turnaround time, and the time in the ready queue
exactly for the processes that no tick finds asleep or not yet RUNNABLE. -/
theorem waiting_time_ready (h : Path next boot tr w) (ho : ∀ e ∈ tr, onCpu0 e = true)
    (hn : tr.countP ticking < 2 ^ 32) {l r : List (Event World Label)} {e : Event World Label}
    (htr : tr = l ++ e :: r) (he : reports p e) :
    (e.post.procs p).turnaroundTime = (life p l).countP ticking ∧
      (ReportsReady p l e ↔ AlwaysReady p (life p l)) := by
  subst htr
  obtain ⟨h1, hs, -⟩ := h.split
  rw [List.countP_append] at hn
  have hg := ledger_run h1 (fun x hx => ho x (by simp [hx])) (by omega)
  have hidle := reports_idle hs (ho e (by simp)) he
  obtain ⟨s, hpc, hpc'⟩ := he
  have hrun := hg.locks.running (p := p) (by simp [hpc, Pc.holdsOwn])
  have hv := hg.lived p (by simp [hrun])
  have hseen := hv.seen
  rw [hidle, Clock.pending] at hseen
  have hturn := hv.exit s hpc
  have hran := hv.ran
  have hage := hv.age
  have hticks := hg.ticks
  obtain ⟨hle, hiff⟩ := visits_split p (life p l)
  have hpost := (exitWaiting_step hg.locks (next_cases hs) hpc).resolve_left hpc'
  have hx : e.post.procs p = (e.pre.procs p).recordWaiting := by simp [hpost]
  have hwait : (e.post.procs p).waitingTime =
      (life p l).countP ticking - (life p l).countP (found p .running) := by
    rw [hx, Proc.recordWaiting, hturn, hran]
    exact sub64_of_le (by omega) (by omega)
  refine ⟨by rw [hx]; exact hturn, ?_⟩
  rw [← hiff]
  constructor
  · intro hr
    have := hr.waiting
    omega
  · intro hr
    exact ⟨by rw [hx]; exact hturn, by omega⟩

/-- The child of init is RUNNABLE at the first tick, runs at the second and exits. -/
def readyOneTick : List Label :=
  let cpu0 := Label.proc 0 (.go true)
  [.sched 0, cpu0, .proc 0 .fork, cpu0, cpu0, cpu0, cpu0] ++
  List.replicate (NPROC + 2) .clock ++
  [.proc 0 (.sleep (.obj 0)), .sched 0, .sched 0, .sched 0, cpu0] ++
  List.replicate (NPROC + 2) .clock ++ [.proc 0 (.exit 0), cpu0, cpu0, cpu0]

theorem readyOneTick_length : 147 < (events next boot readyOneTick).length := by decide +kernel

theorem waiting_time_ready_readyOneTick :
    ((final next boot readyOneTick).procs 1).turnaroundTime = 2 ∧
      ((final next boot readyOneTick).procs 1).waitingTime = 1 ∧
      AlwaysReady 1 (life 1 ((events next boot readyOneTick).take 147)) := by
  have hp : Path next boot _ (final next boot readyOneTick) := path_final (by decide +kernel)
  have hcut : events next boot readyOneTick = (events next boot readyOneTick).take 147 ++
      (events next boot readyOneTick).get ⟨147, readyOneTick_length⟩ ::
        (events next boot readyOneTick).drop 148 := by
    rw [List.get_eq_getElem, List.getElem_cons_drop, List.take_append_drop]
  obtain ⟨-, hiff⟩ := waiting_time_ready (p := 1) hp (by decide +kernel) (by decide +kernel) hcut
    ⟨0, by decide +kernel, by decide +kernel⟩
  exact ⟨by decide +kernel, by decide +kernel, hiff.mp (by decide +kernel)⟩

/-- The child of init sleeps while ticks is incremented, is woken and exits. -/
def sleepsOneTick : List Label :=
  let cpu0 := Label.proc 0 (.go true)
  [.sched 0, cpu0, .proc 0 .fork, cpu0, cpu0, cpu0, cpu0, .proc 0 (.sleep (.obj 0)), .sched 0,
    .sched 0, .sched 0, cpu0, .proc 0 (.sleep .ticks), .sched 0] ++
  List.replicate (NPROC + 2) .clock ++
  [.wakeup .ticks 1, .sched 0, .sched 0, cpu0, .proc 0 (.exit 0), cpu0, cpu0, cpu0]

theorem sleepsOneTick_length : 87 < (events next boot sleepsOneTick).length := by decide +kernel

/-- Its exit reports the tick that it slept as waiting time. -/
theorem sleepsOneTick_waits :
    Path next boot (events next boot sleepsOneTick) (final next boot sleepsOneTick) ∧
      (∀ e ∈ events next boot sleepsOneTick, onCpu0 e = true) ∧
      (events next boot sleepsOneTick).countP ticking < 2 ^ 32 ∧
      ((final next boot sleepsOneTick).procs 1).waitingTime = 1 ∧
      (events next boot sleepsOneTick).countP (found 1 .runnable) = 0 ∧
      ¬ ∀ l e r p, events next boot sleepsOneTick = l ++ e :: r → reports p e →
        ReportsReady p l e := by
  refine ⟨path_final (by decide +kernel), by decide +kernel, by decide +kernel,
    by decide +kernel, by decide +kernel, fun h => ?_⟩
  have hr := h ((events next boot sleepsOneTick).take 87)
    ((events next boot sleepsOneTick).get ⟨87, sleepsOneTick_length⟩)
    ((events next boot sleepsOneTick).drop 88) 1
    (by rw [List.get_eq_getElem, List.getElem_cons_drop, List.take_append_drop])
    ⟨0, by decide +kernel, by decide +kernel⟩
  exact absurd hr (by decide +kernel)

end Xv6.Sections
