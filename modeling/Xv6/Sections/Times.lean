import Xv6.Sections.Records

set_option maxRecDepth 8192

namespace Xv6.Sections

open Xv6.Framework Xv6.Process

variable {w w' : World} {c : Nat} {p q i : ProcId} {k : Pc} {x : Proc} {l : Label}
  {tr : List (Event World Label)}

/-- The times of a process never add up to more than ticks. A slot that the running update_time
has still to visit has one tick to spare, unless it was taken since ticks was incremented. -/
structure Times (w : World) : Prop where
  bound : w.ticks < 2 ^ 32
  spent : ∀ i, (w.procs i).rtime + (w.procs i).ctime ≤ w.ticks
  spare : ∀ i j, w.clock = .update j → j ≤ i.val → (w.procs i).ctime < w.ticks →
    (w.procs i).rtime + (w.procs i).ctime + 1 ≤ w.ticks
  exit : ∀ i s, w.pc i = .exitWaiting s →
    (w.procs i).rtime + (w.procs i).ctime ≤ (w.procs i).completetime ∧
    (w.procs i).completetime < 2 ^ 32 ∧
    (w.procs i).turnaroundTime = sub64 (w.procs i).completetime (w.procs i).ctime

/-- A step other than one of update_time writes the times of slot i in exit only. -/
structure Steady (w w' : World) (i : ProcId) : Prop where
  rtime : (w'.procs i).rtime = (w.procs i).rtime
  ctime : (w'.procs i).ctime = (w.procs i).ctime
  exit : ∀ s, w'.pc i = .exitWaiting s →
    w.pc i = .exitWaiting s ∧ (w'.procs i).completetime = (w.procs i).completetime ∧
        (w'.procs i).turnaroundTime = (w.procs i).turnaroundTime ∨
      (w'.procs i).completetime = w.ticks ∧
        (w'.procs i).turnaroundTime = sub64 w.ticks (w.procs i).ctime

namespace Steady

theorem edit (h1 : w'.procs = update w.procs q x)
    (h2 : ∀ s, w'.pc i = .exitWaiting s → w.pc i = .exitWaiting s)
    (hr : x.rtime = (w.procs q).rtime) (hc : x.ctime = (w.procs q).ctime)
    (hx : x.completetime = (w.procs q).completetime ∧
      x.turnaroundTime = (w.procs q).turnaroundTime ∨ ∀ s, w.pc q ≠ .exitWaiting s) :
    Steady w w' i := by
  have h1 : w'.procs i = if i = q then x else w.procs i := by rw [h1, update_apply]
  refine ⟨?_, ?_, fun s hs => .inl ⟨h2 s hs, ?_⟩⟩ <;> grind

theorem same (h1 : w'.procs = w.procs)
    (h2 : ∀ s, w'.pc i = .exitWaiting s → w.pc i = .exitWaiting s) : Steady w w' i :=
  edit (x := w.procs i) (by rw [h1, update_eq_self]) h2 rfl rfl (.inl ⟨rfl, rfl⟩)

end Steady

/-- A process that moves on, but not to the section that reads rtime. -/
theorem exitWaiting_of_move (h : w'.pc = update w.pc p k) (hk : ∀ s, k ≠ .exitWaiting s) (s : Int)
    (hs : w'.pc i = .exitWaiting s) : w.pc i = .exitWaiting s := by
  rw [h] at hs
  grind

theorem steady_section (hl : Locks w) (hc : w.cpu c = .run p) (h : Section w c p w')
    (i : ProcId) : Steady w w' i ∨ Entered w w' i := by
  cases h with
  | @forkAlloc np hpc _ hu ok =>
    cases ok with
    | false =>
      refine .inl (.edit rfl (exitWaiting_of_move rfl (by simp)) rfl rfl (.inr fun s h => ?_))
      have hs := hl.state np
      simp [h, hu, Pc.admits] at hs
    | true =>
      have hne : np ≠ p := by
        rintro rfl
        have hr := hl.run c _ hc
        simp [hu] at hr
      by_cases hi : i = np
      · rw [hi]
        exact .inr (forkAt_entered hu hne)
      · left
        refine ⟨?_, ?_, fun s hs => .inl ?_⟩ <;> grind
  | exitTime =>
    left
    refine ⟨?_, ?_, fun s hs => ?_⟩ <;> grind [Proc.recordCompletion]
  | @reap q b hpc hf hq hz =>
    refine .inl (.edit rfl (exitWaiting_of_move rfl (by simp)) rfl rfl (.inr fun s h => ?_))
    have hs := hl.state q
    simp [h, hz, Pc.admits] at hs
  | yielded hpc =>
    have hk := hl.preemptible hpc
    refine .inl (.same rfl (exitWaiting_of_move rfl fun s hs => ?_))
    subst hs
    cases hk
  | wakeupEnd hpc =>
    have hk := hl.afterWakeup hpc
    refine .inl (.same rfl (exitWaiting_of_move rfl fun s hs => ?_))
    subst hs
    cases hk
  | wakeup =>
    refine .inl (.edit rfl (exitWaiting_of_move rfl (by simp)) ?_ ?_ (.inl ?_))
    all_goals
      rw [Proc.wakeup_eq]
    exact ⟨rfl, rfl⟩
  | forkParent | forkReady | waitSleepSched | waitWake | exit | exitWaiting | reparent
  | exitZombie | exitSched | kill | sleep | sleepWake | yield =>
    exact .inl (.edit rfl (exitWaiting_of_move rfl (by simp)) rfl rfl (.inl ⟨rfl, rfl⟩))
  | _ => exact .inl (.same rfl (exitWaiting_of_move rfl (by simp)))

theorem Times.steady (ht : Times w) (h1 : w'.ticks = w.ticks ∧ w'.clock = w.clock)
    (h : ∀ i, Steady w w' i ∨ Entered w w' i) : Times w' where
  bound := by
    rw [h1.1]
    exact ht.bound
  spent i := by
    have hi := ht.spent i
    rcases h i with hs | he
    · rw [hs.rtime, hs.ctime, h1.1]
      exact hi
    · rw [he.rtime, he.ctime, h1.1, Nat.zero_add]
  spare i j hj hij hlt := by
    rcases h i with hs | he
    · rw [hs.ctime, h1.1] at hlt
      rw [hs.rtime, hs.ctime, h1.1]
      exact ht.spare i j (h1.2 ▸ hj) hij hlt
    · rw [he.ctime, h1.1] at hlt
      exact absurd hlt (Nat.lt_irrefl _)
  exit i s hpc := by
    rcases h i with hs | he
    · rw [hs.rtime, hs.ctime]
      rcases hs.exit s hpc with ⟨hold, h2, h3⟩ | ⟨h2, h3⟩
      · rw [h2, h3]
        exact ht.exit i s hold
      · rw [h2, h3]
        exact ⟨ht.spent i, ht.bound, rfl⟩
    · rw [he.pc] at hpc
      cases hpc

/-- The tick that update_time is about to count for slot i began after the process was created,
and exit has not read ticks before it. -/
def countsFairly (w : World) (i : ProcId) : Bool :=
  decide ((w.procs i).ctime < w.ticks) && match w.pc i with
    | .exitWaiting _ => decide ((w.procs i).completetime = w.ticks)
    | _ => true

/-- Every count of update_time is fair. -/
def Fair (e : Event World Label) : Prop :=
  ∀ i : ProcId, e.pre.clock = .update i → e.post.clock = .update (i + 1) →
    (e.pre.procs i).state = .running → countsFairly e.pre i = true

instance (e : Event World Label) : Decidable (Fair e) :=
  inferInstanceAs (Decidable (∀ _ : ProcId, _ → _ → _ → _))

def ticking (e : Event World Label) : Bool :=
  decide (e.pre.clock = .idle) && decide (e.post.clock = .update 0)

theorem times_update (ht : Times w) (hc : w.clock = .update q)
    (hf : (w.procs q).state = .running → countsFairly w q = true) :
    Times { w.setProc q (w.procs q).updateTime with clock := .update (q + 1) } := by
  have hb := ht.bound
  have hsp := ht.spare q q hc (Nat.le_refl _)
  constructor
  · exact hb
  · intro i
    have h := ht.spent i
    grind [Proc.updateTime, countsFairly]
  · intro i j hj hij
    injection hj with hj
    have h := ht.spare i q hc (by omega)
    grind
  · intro i s hs
    have h := ht.exit i s hs
    grind [Proc.updateTime, countsFairly]

theorem times_tick (ht : Times w) (hn : w.ticks + 1 < 2 ^ 32) :
    Times { w with ticks := (w.ticks + 1) % 2 ^ 32, clock := .update 0 } := by
  rw [Nat.mod_eq_of_lt hn]
  exact
    { bound := hn
      spent := fun i => Nat.le_succ_of_le (ht.spent i)
      spare := fun i j _ _ _ => Nat.succ_le_succ (ht.spent i)
      exit := ht.exit }

theorem ticks_schedSection (h : SchedSection w c w') :
    w'.ticks = w.ticks ∧ w'.clock = w.clock := by
  cases h <;> exact ⟨rfl, rfl⟩

theorem ticks_section (h : Section w c p w') : w'.ticks = w.ticks ∧ w'.clock = w.clock := by
  cases h with
  | forkAlloc _ _ _ ok => cases ok <;> exact ⟨rfl, rfl⟩
  | _ => exact ⟨rfl, rfl⟩

theorem steady_schedSection (h : SchedSection w c w') (i : ProcId) : Steady w w' i := by
  cases h with
  | first | last => exact .edit rfl (fun _ h => h) rfl rfl (.inl ⟨rfl, rfl⟩)
  | _ => exact .same rfl fun _ h => h

theorem steady_wakeup {ch : Chan} (i : ProcId) :
    Steady w (w.setProc q ((w.procs q).wakeup ch)) i := by
  refine .edit rfl (fun _ h => h) ?_ ?_ (.inl ?_)
  all_goals
    rw [Proc.wakeup_eq]
  exact ⟨rfl, rfl⟩

theorem steady_setPriority {priority : Int} (i : ProcId) :
    Steady w (w.setProc q { w.procs q with priority := priority }) i :=
  .edit rfl (fun _ h => h) rfl rfl (.inl ⟨rfl, rfl⟩)

theorem times_step (ht : Times w) (hl : Locks w) (h : Step w l w') (hf : Fair ⟨w, l, w'⟩)
    (hn : ticking ⟨w, l, w'⟩ = true → w.ticks + 1 < 2 ^ 32) : Times w' := by
  cases h with
  | sched h => exact ht.steady (ticks_schedSection h) fun i => .inl (steady_schedSection h i)
  | proc hc h => exact ht.steady (ticks_section h) (steady_section hl hc h)
  | tick hc => exact times_tick ht (hn (by simp [ticking, hc]))
  | update hc hq => exact times_update ht hc (hf _ hc rfl)
  | updateEnd hc hi => exact ⟨ht.bound, ht.spent, fun _ _ hj => (nomatch hj), ht.exit⟩
  | wakeup => exact ht.steady ⟨rfl, rfl⟩ fun i => .inl (steady_wakeup i)
  | setMode => exact ht.steady ⟨rfl, rfl⟩ fun i => .inl (.same rfl fun _ h => h)
  | setPriority => exact ht.steady ⟨rfl, rfl⟩ fun i => .inl (steady_setPriority i)

theorem times_boot : Times boot where
  bound := by decide
  spent i := by
    by_cases h : i = initproc <;> simp [boot, h, Proc.userinit, Proc.zero, Proc.stamp]
  spare i j hj := by cases hj
  exit i s hs := by cases hs

theorem ticks_same (h : w'.ticks = w.ticks ∧ w'.clock = w.clock) :
    w'.ticks = if ticking ⟨w, l, w'⟩ then (w.ticks + 1) % 2 ^ 32 else w.ticks := by
  cases hc : w.clock <;> simp [ticking, h.1, h.2, hc]

theorem ticks_step (h : Step w l w') :
    w'.ticks = if ticking ⟨w, l, w'⟩ then (w.ticks + 1) % 2 ^ 32 else w.ticks := by
  cases h with
  | sched h => exact ticks_same (ticks_schedSection h)
  | proc _ h => exact ticks_same (ticks_section h)
  | tick hc | update hc | updateEnd hc => simp [ticking, hc]
  | wakeup | setMode | setPriority => exact ticks_same ⟨rfl, rfl⟩

theorem ticks_run (h : Path next boot tr w) : w.ticks = tr.countP ticking % 2 ^ 32 := by
  induction h with
  | nil => rfl
  | @snoc t u tr a _ hn ih =>
    rw [ticks_step (next_cases hn), ih, List.countP_append, List.countP_singleton]
    split <;> simp

/-- The section of exit that reads rtime, seen from outside. -/
theorem exitWaiting_step (hl : Locks w) (h : Step w l w') {s : Int}
    (hpc : w.pc p = .exitWaiting s) :
    w'.pc p = .exitWaiting s ∨
      w' = (w.setProc p (w.procs p).recordWaiting).setPc p (.exitReparent s 0) := by
  have hrun := hl.running (p := p) (by simp [hpc, Pc.holdsOwn])
  cases h with
  | @proc c q a w' hc h =>
    by_cases hq : p = q
    · subst hq
      cases h with
      | exitWaiting hpc' =>
        rw [hpc] at hpc'
        injection hpc' with hs
        subst hs
        exact .inr rfl
      | yield hpc' => simp [hpc, Pc.preemptible] at hpc'
      | _ => simp_all
    · left
      rw [section_pc h hq (by simp [hrun]), hpc]
  | sched h =>
    left
    cases h <;> exact hpc
  | _ => exact .inl hpc

/-- exit computes the waiting time without wrap-around. -/
def WaitingExact (e : Event World Label) : Prop :=
  ∀ p s, e.pre.pc p = .exitWaiting s → e.post.pc p ≠ .exitWaiting s →
    (e.pre.procs p).ctime ≤ (e.pre.procs p).completetime ∧
    (e.pre.procs p).rtime ≤ (e.pre.procs p).completetime - (e.pre.procs p).ctime ∧
    (e.post.procs p).waitingTime =
      (e.pre.procs p).completetime - (e.pre.procs p).ctime - (e.pre.procs p).rtime

theorem waitingExact_step (ht : Times w) (hl : Locks w) (h : Step w l w') :
    WaitingExact ⟨w, l, w'⟩ := by
  intro p s hpc hne
  obtain ⟨hsum, hlt, hta⟩ := ht.exit p s hpc
  rcases exitWaiting_step hl h hpc with hpc' | rfl
  · exact absurd hpc' hne
  · dsimp only at hsum ⊢
    have hturn : sub64 (w.procs p).completetime (w.procs p).ctime =
        (w.procs p).completetime - (w.procs p).ctime := sub64_of_le (by omega) (by omega)
    refine ⟨by omega, by omega, ?_⟩
    simp only [World.setPc_procs, setProc_procs, Proc.recordWaiting, hta, hturn]
    exact sub64_of_le (by omega) (by omega)

theorem ticks_lt (h : Path next boot tr w) (hn : tr.countP ticking < 2 ^ 32)
    {e : Event World Label} (he : e ∈ tr) (ht : ticking e = true) : e.pre.ticks + 1 < 2 ^ 32 := by
  obtain ⟨l, r, rfl⟩ := List.append_of_mem he
  rw [ticks_run h.split.1]
  simp only [List.countP_append, List.countP_cons, ht, if_true] at hn
  omega

theorem times_run (h : Path next boot tr w) (hn : tr.countP ticking < 2 ^ 32)
    (hf : ∀ e ∈ tr, Fair e) : Locks w ∧ Times w := by
  refine h.invariant (I := fun w => Locks w ∧ Times w)
    (C := fun e => Fair e ∧ (ticking e = true → e.pre.ticks + 1 < 2 ^ 32)) ?_
    ⟨locks_boot, times_boot⟩ fun e he => ⟨hf e he, ticks_lt h hn he⟩
  intro s a t hs ha hC
  have hstep := next_cases ha
  exact ⟨locks_step hs.1 hstep, times_step hs.2 hs.1 hstep hC.1 hC.2⟩

/-- A run in which every count is fair computes every waiting time exactly. -/
theorem waiting_time_exact (h : Path next boot tr w) (hn : tr.countP ticking < 2 ^ 32)
    (hf : ∀ e ∈ tr, Fair e) : ∀ e ∈ tr, WaitingExact e := by
  intro e he
  obtain ⟨l, r, rfl⟩ := List.append_of_mem he
  obtain ⟨h1, ha, -⟩ := h.split
  rw [List.countP_append] at hn
  obtain ⟨hl, ht⟩ := times_run h1 (by omega) fun x hx => hf x (by simp [hx])
  exact waitingExact_step ht hl (next_cases ha)

/-- A child of init runs on CPU 1 while the first tick is counted, and then exits. -/
def oneTick : List Label :=
  let init := Label.proc 2 (.go true)
  let child := Label.proc 1 (.go true)
  [.sched 2, init, .proc 2 .fork, init, init, init, init, .sched 1, .sched 1, child] ++
  List.replicate (NPROC + 2) .clock ++ [.proc 1 (.exit 0), child, child, child]

theorem waiting_time_exact_oneTick :
    ((final next boot oneTick).procs 1).rtime = 1 ∧
      ((final next boot oneTick).procs 1).waitingTime = 0 ∧
      ∀ e ∈ events next boot oneTick, WaitingExact e := by
  have hp : Path next boot _ (final next boot oneTick) := path_final rfl
  exact ⟨by decide, by decide, waiting_time_exact hp (by decide) (by decide)⟩

/-- init forks while the first tick is being counted, before update_time reaches the slot of the
child, and the child runs and exits before the second tick. -/
def lateCount : List Label :=
  let init := Label.proc 2 (.go true)
  let child := Label.proc 1 (.go true)
  [.sched 2, init, .proc 2 .fork, .clock, init, init, init, init, .sched 1, .sched 1, child,
    .clock, .clock, .proc 1 (.exit 0), child, child, child]

theorem lateCount_wraps :
    Path next boot (events next boot lateCount) (final next boot lateCount) ∧
      (events next boot lateCount).countP ticking < 2 ^ 32 ∧
      ((final next boot lateCount).procs 1).waitingTime = 2 ^ 64 - 1 ∧
      ¬ ∀ e ∈ events next boot lateCount, WaitingExact e := by
  refine ⟨path_final rfl, by decide, by decide, fun h => ?_⟩
  have he := h _ (List.getElem_mem (l := events next boot lateCount) (n := 16) (by decide)) 1 0
    rfl (by decide)
  exact absurd he.2.1 (by decide)

end Xv6.Sections
