import Xv6.Sections.Doze
import Xv6.Sections.Records

set_option maxRecDepth 8192

namespace Xv6.Sections

open Xv6.Framework Xv6.Process

variable {w w' : World} {c : Nat} {p q i : ProcId} {x : Proc} {l : Label}
  {tr : List (Event World Label)} {e : Event World Label} {r : Reap} {ret : Int}

/-- A zombie stays one until its parent frees its slot. -/
theorem zombie_step (hl : Locks w) (h : Step w l w') (hz : (w.procs i).state = .zombie) :
    (w'.procs i).state = .zombie ∨
      ∃ c a p, l = .proc c a ∧ w.cpu c = .run p ∧ Reaps w p i w' := by
  cases step_moves hl h i with
  | stays hs => exact .inl (hs.trans hz)
  | reaped hr hl hc => exact .inr ⟨_, _, _, hl, hc, hr⟩
  | enters he => simp [he.free] at hz
  | readied hs | starts hs | leaves hs => simp [hz, dormant] at hs

/-- p has reaped r in wait and has still to return. -/
structure Returning (w : World) (p : ProcId) (r : Reap) : Prop where
  pc : w.pc p = .waitUnlock r.pid
  last : w.hist.reaped.getLast? = some r
  reaper : r.parent = w.hist.ident p
  status : (w.waits p).status = if (w.waits p).addr = 0 then none else some r.status

/-- wait has returned the pid of r to p and stored its status, unless its argument was 0. -/
structure Returned (w : World) (p : ProcId) (r : Reap) : Prop where
  pc : w.pc p = .user
  ret : (w.waits p).ret = some r.pid
  status : (w.waits p).status = if (w.waits p).addr = 0 then none else some r.status

theorem Returning.frame (h : Returning w p r) (hpc : w'.pc p = w.pc p)
    (hw : w'.waits p = w.waits p) (hi : w'.hist.ident p = w.hist.ident p)
    (hr : w'.hist.reaped = w.hist.reaped) : Returning w' p r where
  pc := hpc.trans h.pc
  last := by rw [hr, h.last]
  reaper := h.reaper.trans hi.symm
  status := by rw [hw, h.status]

theorem returned_waitReturn (h : Returning w p r) : Returned (waitReturn w p r.pid) p r := by
  constructor
  · simp [waitReturn, dropWait]
  · simp [waitReturn]
  · simpa [waitReturn] using h.status

theorem returning_reapAt : Returning (reapAt w p q) p
    ⟨w.hist.ident q, w.hist.ident p, (w.procs q).pid, (w.procs q).xstate⟩ := by
  constructor
  · simp [reapAt]
  · simp [reapAt]
  · rfl
  · simp [reapAt]

theorem section_reaped (h : Section w c p w') : w'.hist.reaped = w.hist.reaped ∨
    (w.pc p).holdsWait = true ∧
      ∃ r, w'.hist.reaped = w.hist.reaped ++ [r] ∧ Returning w' p r := by
  cases h with
  | reap hpc => exact .inr ⟨by rw [hpc]; rfl, _, rfl, returning_reapAt⟩
  | forkAlloc _ _ _ ok => cases ok <;> exact .inl rfl
  | _ => exact .inl rfl

/-- The section of another process leaves p alone, which holds wait_lock. -/
theorem returning_other (hl : Locks w) (h : Section w c q w') (hr : Returning w p r)
    (hne : p ≠ q) : Returning w' p r := by
  have hrun := hl.running (p := p) (by rw [hr.pc]; rfl)
  have hs : (w.procs p).state ≠ .unused := by simp [hrun]
  have hwait : w.waitLock = some p := (hl.wait p).mpr (by rw [hr.pc]; rfl)
  apply hr.frame (section_pc h hne hs) (section_waits h hne) (section_ident h hs)
  rcases section_reaped h with h | ⟨hq, -⟩
  · exact h
  · rw [← hl.wait q, hwait] at hq
    exact absurd (Option.some.inj hq) hne

/-- A process that has reaped stays at the end of wait until it returns what it reaped. -/
theorem returning_step (hl : Locks w) (h : Step w l w') (hr : Returning w p r) :
    Returning w' p r ∨ Returned w' p r := by
  have hp := hr.pc
  cases h with
  | @proc c q a w' hc h =>
    by_cases hq : p = q
    · subst hq
      right
      cases h with
      | waitUnlock hpc =>
        rw [hp] at hpc
        cases hpc
        exact returned_waitReturn hr
      | yield hpc => simp [hp, Pc.preemptible] at hpc
      | _ => simp_all
    · exact .inl (returning_other hl h hr hq)
  | sched h => cases h <;> exact .inl (hr.frame rfl rfl rfl rfl)
  | _ => exact .inl (hr.frame rfl rfl rfl rfl)

theorem step_reaped (h : Step w l w') : w'.hist.reaped = w.hist.reaped ∨
    ∃ p r, w'.hist.reaped = w.hist.reaped ++ [r] ∧ Returning w' p r := by
  cases h with
  | proc hc h => exact (section_reaped h).imp_right fun ⟨_, r, hr⟩ => ⟨_, r, hr⟩
  | sched h => cases h <;> exact .inl rfl
  | _ => exact .inl rfl

/-- What a wait is about to return: -1, or the pid of the child that it has reaped. -/
def Honest (w : World) : Prop :=
  ∀ p ret, w.pc p = .waitUnlock ret → ret = -1 ∨ ∃ r, Returning w p r

theorem section_waitUnlock (hl : Locks w) (h : Section w c p w')
    (hq : w'.pc q = .waitUnlock ret) :
    w.pc q = .waitUnlock ret ∨ ret = -1 ∨ ∃ r, Returning w' q r := by
  cases h with
  | reap =>
    by_cases hqp : q = p
    · subst hqp
      exact .inr (.inr ⟨_, returning_reapAt⟩)
    · rw [reapAt_pc, if_neg hqp] at hq
      exact .inl hq
  | yielded hpc =>
    have hk := hl.preemptible hpc
    grind [Pc.preemptible]
  | wakeupEnd hpc =>
    have hk := hl.afterWakeup hpc
    grind [Pc.afterWakeup]
  | forkAlloc _ _ _ ok => cases ok <;> grind [forkAt]
  | _ => grind

theorem honest_step (hl : Locks w) (hh : Honest w) (h : Step w l w') : Honest w' := by
  intro p ret hp
  have hpre : w.pc p = .waitUnlock ret ∨ ret = -1 ∨ ∃ r, Returning w' p r := by
    cases h with
    | proc hc h => exact section_waitUnlock hl h hp
    | sched h => cases h <;> exact .inl hp
    | _ => exact .inl hp
  rcases hpre with hpre | h'
  · rcases hh p ret hpre with hret | ⟨r, hr⟩
    · exact .inl hret
    · rcases returning_step hl h hr with hr | hr
      · exact .inr ⟨r, hr⟩
      · rw [hr.pc] at hp
        cases hp
  · exact h'

structure Invariants (w : World) : Prop where
  locks : Locks w
  family : Family w
  doze : Doze w
  honest : Honest w

theorem invariants_next (hi : Invariants w) (h : next w l = some w') : Invariants w' :=
  ⟨locks_step hi.locks (next_cases h), family_step hi.family hi.locks (next_cases h),
    doze_step hi.doze hi.locks hi.family (next_cases h),
    honest_step hi.locks hi.honest (next_cases h)⟩

theorem invariants_boot : Invariants boot :=
  ⟨locks_boot, family_boot, doze_boot, fun _ _ h => by cases h⟩

theorem invariants_run (h : Path next boot tr w) : Invariants w :=
  h.invariant (C := fun _ => True) (fun _ _ _ hi hn _ => invariants_next hi hn) invariants_boot
    (by simp)

theorem event_step (h : Path next boot tr w) (he : e ∈ tr) :
    Invariants e.pre ∧ Step e.pre e.label e.post := by
  obtain ⟨l, r, rfl⟩ := List.append_of_mem he
  obtain ⟨hpre, hn, -⟩ := h.split
  exact ⟨invariants_run hpre, next_cases hn⟩

/-- A sleeper in wait has no exited child unless somebody is waking it. -/
theorem Invariants.awake (hi : Invariants w) (hw : w.waitLock = none)
    (hs : (w.procs p).state = .sleeping) (hch : (w.procs p).chan = some (.proc p))
    (hp : (w.procs i).parent = some p) : (w.procs i).state ≠ .zombie := by
  intro hz
  obtain ⟨q, j, k, hq, -⟩ := hi.doze.woken p i (.inr ⟨hs, hch⟩) hp hz
  have hwait := (hi.locks.wait q).mpr (by rw [hq]; rfl)
  rw [hw] at hwait
  cases hwait

/-- The protocol of exit and wait along a run that ends in w. -/
structure ExitWait (tr : List (Event World Label)) (w : World) : Prop where
  once : (w.hist.reaped.map Reap.child).Nodup
  right : ∀ r ∈ w.hist.reaped, r.Right w.hist
  freed : ∀ e ∈ tr, ∀ i, (e.pre.procs i).state = .zombie → (e.post.procs i).state ≠ .zombie →
    (∃ c a p, e.label = .proc c a ∧ e.pre.cpu c = .run p ∧ Reaps e.pre p i e.post) ∧
    ∀ c, e.pre.cpu c ≠ .run i ∧ e.pre.cpu c ≠ .switched i
  reaped : ∀ e ∈ tr, e.post.hist.reaped = e.pre.hist.reaped ∨
    ∃ p r, e.post.hist.reaped = e.pre.hist.reaped ++ [r] ∧ Returning e.post p r
  returns : ∀ e ∈ tr, ∀ p r, Returning e.pre p r → Returning e.post p r ∨ Returned e.post p r
  unblocked : ∀ p r c, Returning w p r → w.cpu c = .run p → w.ready c = true →
    ∃ w', next w (.proc c (.go true)) = some w' ∧ Returned w' p r
  honest : ∀ p ret, w.pc p = .waitUnlock ret → ret = -1 ∨ ∃ r, Returning w p r
  awake : w.waitLock = none → (∀ p, w.lock p = none) → ∀ p i,
    (w.procs p).state = .sleeping → (w.procs p).chan = some (.proc p) →
    (w.procs i).parent = some p → (w.procs i).state ≠ .zombie

theorem exit_wait (h : Path next boot tr w) : ExitWait tr w where
  once := (invariants_run h).family.once
  right := (invariants_run h).family.right
  freed e he i hz hnz := by
    obtain ⟨hinv, hs⟩ := event_step h he
    have hl := hinv.locks
    rcases zombie_step hl hs hz with hz' | ⟨c, a, p, hlab, hc, hr⟩
    · exact absurd hz' hnz
    · refine ⟨⟨c, a, p, hlab, hc, hr⟩, fun d => ⟨?_, hl.not_switched hr.free⟩⟩
      exact hl.idle hr.free (by simp [hz])
  reaped e he := step_reaped (event_step h he).2
  returns e he p r hr := returning_step (event_step h he).1.locks (event_step h he).2 hr
  unblocked p r c hr hc hready := by
    refine ⟨waitReturn w p r.pid, ?_, returned_waitReturn hr⟩
    simp [next, hready, hc, procStep, proceed, hr.pc]
  honest := (invariants_run h).honest
  awake hw _ p i hs hch hp := (invariants_run h).awake hw hs hch hp

/-- init forks a child on CPU 1, which exits with status 7, and waits for it. -/
def oneChild : List Label :=
  let init := Label.proc 0 (.go true)
  let child := Label.proc 1 (.go true)
  [.sched 0, init, .proc 0 .fork, init, init, init, init, .sched 1, .sched 1, child,
    .proc 1 (.exit 7), child, child, child] ++
  List.replicate (NPROC + 1) child ++ [child] ++ List.replicate (NPROC + 1) child ++
  [child, child, child, .sched 1, .proc 0 (.wait 4096), init, init, init, init]

theorem exit_wait_oneChild :
    (final next boot oneChild).hist.reaped.map
        (fun r => (r.child, r.parent, r.pid, r.status)) = [(1, 0, 2, 7)] ∧
      (final next boot oneChild).waits 0 = ⟨4096, some 7, some 2⟩ ∧
      ExitWait (events next boot oneChild) (final next boot oneChild) := by
  have hp : Path next boot _ (final next boot oneChild) := path_final rfl
  exact ⟨by decide, by decide, exit_wait hp⟩

end Xv6.Sections
