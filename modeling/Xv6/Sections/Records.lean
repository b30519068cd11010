import Xv6.Sections.Family

namespace Xv6.Sections

open Xv6.Framework Xv6.Process

variable {w w' : World} {c : Nat} {p q i : ProcId} {x : Proc} {l : Label}

def placed (s : ProcState) : Bool := alive s || decide (s = .zombie)

/-- A process waits to be made RUNNABLE by a wakeup, by kill or by the end of fork. -/
def dormant (s : ProcState) : Bool := decide (s = .sleeping) || decide (s = .used)

/-- The record of a process that was in the table before a step. -/
structure Kept (w w' : World) (i : ProcId) : Prop where
  live : (w.procs i).state ≠ .unused
  pid : (w'.procs i).pid = (w.procs i).pid
  ctime : (w'.procs i).ctime = (w.procs i).ctime

/-- A process that a step enters into the table. -/
structure Entered (w w' : World) (i : ProcId) : Prop where
  free : (w.procs i).state = .unused
  used : (w'.procs i).state = .used
  pid : (w'.procs i).pid = w.nextpid
  next : w'.nextpid = int32 (w.nextpid + 1)
  ctime : (w'.procs i).ctime = w.ticks
  rtime : (w'.procs i).rtime = 0
  pc : w'.pc i = .forkret
  ticks : w'.ticks = w.ticks
  clock : w'.clock = w.clock

/-- The section of wait in which p frees the slot of its exited child i. -/
structure Reaps (w : World) (p i : ProcId) (w' : World) : Prop where
  scan : ∃ b, w.pc p = .waitScan i b
  free : w.lock i = none
  parent : (w.procs i).parent = some p
  zombie : (w.procs i).state = .zombie
  post : w' = reapAt w p i

/-- What a step can do to a slot. -/
inductive Moves (w : World) (l : Label) (w' : World) (i : ProcId) : Prop
  | stays (hs : (w'.procs i).state = (w.procs i).state)
    (hk : (w.procs i).state ≠ .unused → Kept w w' i)
  | enters {c : Nat} {a : Choice} {p : ProcId} (he : Entered w w' i) (hl : l = .proc c a)
    (hc : w.cpu c = .run p) (hpc : w.pc p = .forkAlloc i)
  | readied (hs : dormant (w.procs i).state = true) (hs' : (w'.procs i).state = .runnable)
    (hk : Kept w w' i)
  | starts {c : Nat} (hs : (w.procs i).state = .runnable) (hs' : (w'.procs i).state = .running)
    (hk : Kept w w' i) (hl : l = .sched c) (hc : w'.cpu c = .run i)
  | leaves {c : Nat} (hs : (w.procs i).state = .running)
    (hs' : (w'.procs i).state = .sleeping ∨ (w'.procs i).state = .zombie ∨
      (w'.procs i).state = .runnable ∧ w'.cpu c = .switched i)
    (hk : Kept w w' i) (hc : w.cpu c = .run i)
  | reaped {c : Nat} {a : Choice} {p : ProcId} (hr : Reaps w p i w') (hl : l = .proc c a)
    (hc : w.cpu c = .run p)

namespace Moves

theorem same (h : w'.procs i = w.procs i) : Moves w l w' i :=
  .stays (by rw [h]) fun hu => ⟨hu, by rw [h], by rw [h]⟩

theorem write (h : w'.procs = update w.procs q x) (hq : w'.procs q = x → Moves w l w' q) :
    Moves w l w' i := by
  by_cases hi : i = q
  · subst hi
    exact hq (by rw [h, update_self])
  · exact same (by rw [h, update_of_ne hi])

theorem edit (h : w'.procs = update w.procs q x) (hs : x.state = (w.procs q).state)
    (hp : x.pid = (w.procs q).pid) (hc : x.ctime = (w.procs q).ctime) : Moves w l w' i :=
  write h fun hx => by
    subst hx
    exact .stays hs fun hu => ⟨hu, hp, hc⟩

/-- A write that makes a sleeper RUNNABLE, if anything. -/
theorem wake (h : w'.procs = update w.procs q x) (hp : x.pid = (w.procs q).pid)
    (hc : x.ctime = (w.procs q).ctime) (hs : x.state = (w.procs q).state ∨
      (w.procs q).state = .sleeping ∧ x.state = .runnable) : Moves w l w' i := by
  rcases hs with hs | ⟨hs, hs'⟩
  · exact edit h hs hp hc
  · refine write h fun hx => ?_
    subst hx
    exact .readied (by simp [dormant, hs]) hs' ⟨by simp [hs], hp, hc⟩

theorem wakeup {ch : Chan} (h : w'.procs = update w.procs q ((w.procs q).wakeup ch)) :
    Moves w l w' i := by
  refine wake h (by rw [Proc.wakeup_eq]) (Proc.wakeup_ctime _ _) ?_
  unfold Proc.wakeup
  split
  case isTrue h => exact .inr ⟨h.1, rfl⟩
  case isFalse => exact .inl rfl

theorem start (hs : (w.procs q).state = .runnable) : Moves w (.sched c) (dispatch w c q) i :=
  write rfl fun hx =>
    .starts hs (by rw [hx]; rfl) ⟨by simp [hs], by rw [hx]; rfl, by rw [hx]; rfl⟩ rfl
      (by simp [dispatch])

end Moves

theorem forkAt_entered (hu : (w.procs q).state = .unused) (hne : q ≠ p) :
    Entered w (forkAt w p q true) q := by
  have hx := forkAt_procs w p q q
  rw [if_pos rfl] at hx
  refine ⟨hu, ?_, ?_, rfl, ?_, ?_, ?_, rfl, rfl⟩
  · rw [hx]; rfl
  · rw [hx]; rfl
  · rw [hx]; rfl
  · rw [hx]; rfl
  · rw [forkAt_pc, if_neg hne, if_pos rfl]

theorem forkAt_moves {a : Choice} (hc : w.cpu c = .run p) (hpc : w.pc p = .forkAlloc q)
    (hu : (w.procs q).state = .unused) (hne : q ≠ p) (ok : Bool) :
    Moves w (.proc c a) (forkAt w p q ok) i := by
  cases ok with
  | false => exact .write rfl fun hx => .stays (by rw [hx, hu]; rfl) fun h => absurd hu h
  | true => exact .write rfl fun _ => .enters (forkAt_entered hu hne) rfl hc hpc

theorem section_moves {a : Choice} (hl : Locks w) (hc : w.cpu c = .run p)
    (h : Section w c p w') : Moves w (.proc c a) w' i := by
  have hleave {w' : World} {x : Proc} (h : w'.procs = update w.procs p x)
      (hr : (w.procs p).state = .running) (hp : x.pid = (w.procs p).pid)
      (hct : x.ctime = (w.procs p).ctime) (hs : x.state = .sleeping ∨ x.state = .zombie ∨
        x.state = .runnable ∧ w'.cpu c = .switched p) : Moves w (.proc c a) w' i :=
    .write h fun hx => by
      subst hx
      exact .leaves hr hs ⟨by simp [hr], hp, hct⟩ hc
  cases h with
  | forkAlloc hpc _ hu ok =>
    refine forkAt_moves hc hpc hu ?_ ok
    rintro rfl
    have hr := hl.run c _ hc
    simp [hu] at hr
  | @forkReady np hpc =>
    have hused := hl.child _ np (by rw [hpc]; rfl)
    exact .write rfl fun hx => .readied (by simp [dormant, hused]) (by rw [hx])
      ⟨by simp [hused], by rw [hx], by rw [hx]⟩
  | reap hpc hf hq hz =>
    refine .write rfl fun _ => .reaped ⟨⟨_, hpc⟩, hf, hq, hz, rfl⟩ rfl hc
  | wakeup => exact .wakeup rfl
  | @kill _ q =>
    refine .wake rfl rfl rfl ?_
    by_cases hs : (w.procs q).state = .sleeping <;> simp [Proc.kill, hs]
  | waitSleepSched hpc | sleep hpc =>
    exact hleave rfl (hl.running_of_cpu hc hpc rfl) rfl rfl (.inl rfl)
  | exitZombie hpc => exact hleave rfl (hl.running_of_cpu hc hpc rfl) rfl rfl (.inr (.inl rfl))
  | yield hpc =>
    refine hleave rfl (hl.running ?_) rfl rfl (.inr (.inr ⟨rfl, by simp [swtch]⟩))
    cases hk : w.pc p <;> simp_all [Pc.preemptible, Pc.holdsOwn]
  | forkParent | reparent | exitTime | exitWaiting | exit | waitWake | sleepWake | exitSched =>
    exact .edit rfl rfl rfl rfl
  | _ => exact .same rfl

theorem step_moves (hl : Locks w) (h : Step w l w') (i : ProcId) : Moves w l w' i := by
  cases h with
  | proc hc h => exact section_moves hl hc h
  | sched h =>
    cases h with
    | first _ _ hr => exact .start hr
    | last hc => exact .start (hl.chosen _ _ _ _ hc).2
    | _ => exact .same rfl
  | tick | updateEnd | setMode => exact .same rfl
  | update =>
    refine .edit rfl ?_ ?_ (Proc.updateTime_ctime _)
    all_goals
      unfold Proc.updateTime
      split <;> rfl
  | wakeup => exact .wakeup rfl
  | setPriority => exact .edit rfl rfl rfl rfl

/-- A process is in the table with the pid and the creation time that it entered it with. -/
theorem record_step (hl : Locks w) (h : Step w l w') (hi : (w'.procs i).state ≠ .unused) :
    Kept w w' i ∨
      Entered w w' i ∧ ∃ c a p, l = .proc c a ∧ w.cpu c = .run p ∧ w.pc p = .forkAlloc i := by
  cases step_moves hl h i with
  | stays hs hk => exact .inl (hk (hs ▸ hi))
  | enters he hl hc hpc => exact .inr ⟨he, _, _, _, hl, hc, hpc⟩
  | readied _ _ hk | starts _ _ hk | leaves _ _ hk => exact .inl hk
  | reaped hr =>
    rw [hr.post, reapAt_procs, if_pos rfl] at hi
    exact absurd rfl hi

end Xv6.Sections
