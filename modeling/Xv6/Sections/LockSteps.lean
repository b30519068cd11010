import Xv6.Sections.Locks
import Xv6.Sections.Steps

namespace Xv6.Sections

open Xv6.Framework Xv6.Process

variable {w w' : World} {c : Nat} {p q : ProcId} {k : Pc} {x : Proc}

theorem locks_schedSection (hl : Locks w) (h : SchedSection w c w') : Locks w' := by
  cases h with
  | back hc => exact hl.afterSwitch hc w.mode
  | first hc hf hr => exact hl.dispatch hr (.inl hf) (by simp [hc])
  | choose hc _ hf hr => exact hl.choose hc hf hr _
  | @rechoose m p q hc _ hf hr =>
    have hun := hl.unchoose hc p
    have hcho := hun.choose (c := c) (m := m) (i := p) (by simp)
      (by simp [hf]) hr (p + 1)
    simpa [World.setLock, World.setCpu] using hcho
  | skip hc => exact hl.scanOn hc (.inl rfl)
  | last hc =>
    obtain ⟨h1, h2⟩ := hl.chosen c _ _ _ hc
    exact hl.dispatch h2 (.inr h1) (by simp [hc])
  | idle hc => exact hl.scanOn hc (.inl rfl)

theorem Locks.frame (hl : Locks w) (hp : w'.procs = w.procs) (hk : w'.lock = w.lock)
    (hw : w'.waitLock = w.waitLock) (hpc : w'.pc = w.pc) (hc : w'.cpu = w.cpu) : Locks w' := by
  obtain ⟨h1, h2, h3, h4, h5, h6, h7, h8, h9, h10⟩ := hl
  constructor <;> simp only [hp, hk, hw, hpc, hc] <;> assumption

/-- A process that runs without its lock moves on inside the same critical section. -/
theorem Locks.move (hl : Locks w) {k₀ : Pc} (hpc : w.pc p = k₀) (h₀ : k₀.holdsOwn = false)
    (ha : k.admits .running = true) (ho : k.holdsOwn = false) (hw : k.holdsWait = k₀.holdsWait)
    (hk : k.child = none ∨ k.child = k₀.child) : Locks (w.setPc p k) := by
  subst hpc
  apply hl.setPc
  · rw [hl.running h₀]
    exact ha
  · exact hw
  · exact hk
  · intro c _ hk
    rw [ho] at hk
    cases hk

theorem Locks.edit (hl : Locks w) {k₀ : Pc} (hpc : w.pc p = k₀) (hx : x.state = (w.procs q).state)
    (h₀ : k₀.holdsOwn = false) (ha : k.admits .running = true) (ho : k.holdsOwn = false)
    (hw : k.holdsWait = k₀.holdsWait) (hk : k.child = none ∨ k.child = k₀.child) :
    Locks ((w.setProc q x).setPc p k) :=
  (hl.setProc hx).move hpc h₀ ha ho hw hk

/-- A sleeping process becomes runnable. -/
theorem Locks.wake (hl : Locks w) (hf : w.lock q = none) (ch : Chan) :
    Locks (w.setProc q ((w.procs q).wakeup ch)) := by
  have hs := hl.state q
  unfold Proc.wakeup
  split
  case isTrue h =>
    apply hl.setState hf (by simp [h.1]) (by simp)
    · cases hpc : w.pc q <;> simp_all [Pc.admits]
    · exact hl.not_child (by simp [h.1])
  case isFalse => exact hl.setProc rfl

theorem Locks.kill (hl : Locks w) (hf : w.lock q = none) :
    Locks (w.setProc q (w.procs q).kill) := by
  have hs := hl.state q
  by_cases h : (w.procs q).state = .sleeping
  · apply hl.setState hf (by simp [h]) (by simp [Proc.kill, h])
    · cases hpc : w.pc q <;> simp_all [Pc.admits, Proc.kill]
    · exact hl.not_child (by simp [h])
  · exact hl.setProc (by simp [Proc.kill, h])

/-- A fork announces its new process. -/
theorem Locks.announce (hl : Locks w) (hp : (w.procs p).state = .running)
    (hpc : (w.pc p).holdsWait = false) (hq : (w.procs q).state = .used)
    (hn : ∀ r, (w.pc r).child ≠ some q) : Locks (w.setPc p (.forkParent q)) where
  state r := by
    have hr := hl.state r
    grind [Pc.admits]
  wait r := by
    have hr := hl.wait r
    grind [Pc.holdsWait]
  onCpu := hl.onCpu
  run := hl.run
  uniq := hl.uniq
  held d r hd := by
    have hr := hl.held d r hd
    grind [Pc.holdsOwn]
  switched := hl.switched
  chosen := hl.chosen
  child r np hr := by
    have h := hl.child r np
    grind [Pc.child]
  sole r s np hr hs := by
    have h := hl.sole r s np
    grind [Pc.child]

theorem locks_forkAt (hl : Locks w) {i : Nat} (hpc : w.pc p = .forkAlloc i)
    (hf : w.lock q = none) (hu : (w.procs q).state = .unused) (ok : Bool) :
    Locks (forkAt w p q ok) := by
  have hp := hl.running (p := p) (by simp [hpc, Pc.holdsOwn])
  have hne : p ≠ q := by
    rintro rfl
    rw [hu] at hp
    cases hp
  have hn := hl.not_child (p := q) (by simp [hu])
  have hs := hl.state q
  cases ok with
  | false =>
    have hset : Locks (w.setProc q (((w.procs q).claim w.nextpid).freeproc w.ticks)) :=
      hl.setProc (by simp [Proc.freeproc, hu])
    exact (hset.move (k := .user) hpc rfl rfl rfl rfl (.inl rfl)).frame rfl rfl rfl rfl rfl
  | true =>
    have hret : Locks (w.setPc q .forkret) := by
      apply hl.setPc
      · simp [hu, Pc.admits]
      · cases hk : w.pc q <;> simp_all [Pc.admits, Pc.holdsWait]
      · exact .inl rfl
      · intro c hc
        exact absurd hc (hl.idle hf (by simp [hu]))
    have hn' (r : ProcId) : ((w.setPc q .forkret).pc r).child ≠ some q := by
      grind [Pc.child]
    have hnew : Locks ((w.setPc q .forkret).setProc q
        ((((w.procs q).claim w.nextpid).stamp w.ticks).copyFrom (w.procs p))) := by
      apply hret.setState hf (by simp [hu]) _ _ hn'
      · simp [Proc.copyFrom, Proc.stamp, Proc.claim]
      · simp [Proc.copyFrom, Proc.stamp, Proc.claim, Pc.admits]
    refine (hnew.announce (by simp [hne, hp]) ?_ ?_ hn').frame rfl rfl rfl rfl rfl
    · simp [hne, hpc, Pc.holdsWait]
    · simp [Proc.copyFrom, Proc.stamp, Proc.claim]

/-- A zombie that has released wait_lock is on its way out of its last CPU. -/
theorem Locks.zombie_pc (hl : Locks w) (hpc : (w.pc p).holdsWait = true) (hne : p ≠ q)
    (hz : (w.procs q).state = .zombie) : w.pc q = .exitSched := by
  have hs := hl.state q
  have hq := hl.wait q
  rw [(hl.wait p).mpr hpc] at hq
  cases hk : w.pc q <;> simp_all [Pc.admits, Pc.holdsWait]

theorem locks_reapAt (hl : Locks w) {i : Nat} {b : Bool} (hpc : w.pc p = .waitScan i b)
    (hf : w.lock q = none) (hz : (w.procs q).state = .zombie) : Locks (reapAt w p q) := by
  have hw : (w.pc p).holdsWait = true := by simp [hpc, Pc.holdsWait]
  have hne : p ≠ q := by
    rintro rfl
    have hp := hl.running (p := p) (by simp [hpc, Pc.holdsOwn])
    rw [hz] at hp
    cases hp
  have hset : Locks (w.setProc q ((w.procs q).freeproc w.ticks)) :=
    hl.setState hf (by simp [hz]) (by simp [Proc.freeproc])
      (by simp [hl.zombie_pc hw hne hz, Pc.admits, Proc.freeproc])
      (hl.not_child (by simp [hz]))
  exact (hset.move (k := .waitUnlock (w.procs q).pid) hpc rfl rfl rfl rfl (.inl rfl)).frame
    rfl rfl rfl rfl rfl

/-- A fork makes its new process RUNNABLE. -/
theorem locks_forkReady (hl : Locks w) (hpc : w.pc p = .forkReady q) (hf : w.lock q = none) :
    Locks ((w.setProc q { w.procs q with state := .runnable }).setPc p .user) := by
  have hused := hl.child p q (by simp [hpc, Pc.child])
  have hmove : Locks (w.setPc p .user) := hl.move hpc rfl rfl rfl rfl (.inl rfl)
  have hs := hl.state q
  rw [hused] at hs
  have hne : q ≠ p := by
    rintro rfl
    rw [hpc] at hs
    cases hs
  apply hmove.setState hf (by simp [hused]) (by simp)
  · cases hk : w.pc q <;> simp_all [Pc.admits]
  · intro r hr
    have hsole := hl.sole p r q (by simp [hpc, Pc.child])
    grind [Pc.child]

/-- A preempted process runs on where it was. -/
theorem locks_yielded (hl : Locks w) (hr : (w.procs p).state = .running)
    (hpc : w.pc p = .yielded k) : Locks (dropOwn w p k) := by
  have hk := hl.preemptible hpc
  apply hl.dropOwn hr
  · cases k <;> simp_all [Pc.preemptible, Pc.admits]
  · cases k <;> simp_all [Pc.preemptible, Pc.holdsWait]
  · cases k <;> simp_all [Pc.preemptible, Pc.holdsOwn]
  · exact .inr (by simp [hpc, Pc.child])

/-- The end of sleep: chan is set to 0 and the lock is released. -/
theorem Locks.clearChan (hl : Locks w) {k₀ : Pc} (hpc : w.pc p = k₀)
    (hr : (w.procs p).state = .running) (ha : k.admits .running = true)
    (hw : k.holdsWait = k₀.holdsWait) (ho : k.holdsOwn = false) (hk : k.child = none) :
    Locks (Sections.dropOwn (w.setProc p { w.procs p with chan := none }) p k) := by
  subst hpc
  have hset : Locks (w.setProc p { w.procs p with chan := none }) := hl.setProc rfl
  exact hset.dropOwn (by simpa using hr) ha hw ho (.inl hk)

theorem locks_wakeupEnd (hl : Locks w) {ch : Chan} {i : Nat} (hpc : w.pc p = .wakeup ch i k) :
    Locks (w.setPc p k) := by
  have hk := hl.afterWakeup hpc
  apply hl.move hpc rfl
  · cases k <;> simp_all [Pc.afterWakeup, Pc.admits]
  · cases k <;> simp_all [Pc.afterWakeup, Pc.holdsOwn]
  · cases k <;> simp_all [Pc.afterWakeup, Pc.holdsWait]
  · cases k <;> simp_all [Pc.afterWakeup, Pc.child]

theorem locks_section (hl : Locks w) (hc : w.cpu c = .run p) (h : Section w c p w') :
    Locks w' := by
  have hs := hl.state p
  have hr := hl.run c p hc
  have hrun {k : Pc} (hpc : w.pc p = k) (hk : k.admits .zombie = false) :=
    hl.running_of_cpu hc hpc hk
  cases h with
  | forkret hpc =>
    exact hl.dropOwn (hrun hpc rfl) rfl (by simp [hpc, Pc.holdsWait]) rfl (.inl rfl)
  | yielded hpc => exact locks_yielded hl (hrun hpc rfl) hpc
  | forkAlloc hpc hf hu ok => exact locks_forkAt hl hpc hf hu ok
  | forkParent hpc hw => exact hl.edit hpc rfl rfl rfl rfl rfl (.inr rfl)
  | forkReady hpc hf => exact locks_forkReady hl hpc hf
  | waitLock hpc hw => exact hl.takeWait hw (by rw [hrun hpc rfl]; rfl) rfl rfl rfl
  | reap hpc hf hq hz => exact locks_reapAt hl hpc hf hz
  | wait hpc addr =>
    have hmove : Locks (w.setPc p .waitLock) := hl.move hpc rfl rfl rfl rfl (.inl rfl)
    exact hmove.frame rfl rfl rfl rfl rfl
  | waitUnlock hpc =>
    have hdrop : Locks (dropWait w p .user) :=
      hl.dropWait (by simp [hpc, Pc.holdsWait]) (by rw [hrun hpc rfl]; rfl) rfl
        (by simp [hpc, Pc.holdsOwn]) rfl
    exact hdrop.frame rfl rfl rfl rfl rfl
  | waitSleepLock hpc hf =>
    apply (hl.setLock hf (some c)).setPc
    · simp [hrun hpc rfl, Pc.admits]
    · simp [hpc, Pc.holdsWait]
    · exact .inl rfl
    · intro d hd _
      simp [hl.uniq d c p hd hc]
  | waitSleepUnlock hpc =>
    exact hl.dropWait (by simp [hpc, Pc.holdsWait]) (by rw [hrun hpc rfl]; rfl) rfl
      (by simp [hpc, Pc.holdsOwn]) rfl
  | waitSleepSched hpc =>
    exact hl.swtch hc (by simp) rfl (by simp [hpc, Pc.holdsWait]) (.inl rfl)
  | waitWake hpc => exact hl.clearChan hpc (hrun hpc rfl) rfl rfl rfl rfl
  | exit hpc hi status =>
    have hset : Locks (w.setProc p { w.procs p with ofile := fun _ => none, cwd := none }) :=
      hl.setProc rfl
    exact (hset.move (k := .exitLock status) hpc rfl rfl rfl rfl (.inl rfl)).frame
      rfl rfl rfl rfl rfl
  | exitLock hpc hw => exact hl.takeWait hw (by rw [hrun hpc rfl]; rfl) rfl rfl rfl
  | exitTime hpc => exact hl.edit hpc rfl rfl rfl rfl rfl (.inl rfl)
  | exitWaiting hpc => exact hl.edit hpc rfl rfl rfl rfl rfl (.inl rfl)
  | reparent hpc hq => exact hl.edit hpc rfl rfl rfl rfl rfl (.inl rfl)
  | exitZombie hpc hf => exact hl.becomeZombie hc hpc hf
  | exitUnlock hpc =>
    have hz : (w.procs p).state = .zombie := by simp_all [Pc.admits]
    exact hl.dropWait (by simp [hpc, Pc.holdsWait]) (by rw [hz]; rfl) rfl
      (by simp [hpc, Pc.holdsOwn]) rfl
  | exitSched hpc =>
    have hz : (w.procs p).state = .zombie := by
      rw [hpc] at hs
      simp only [Pc.admits, Bool.or_eq_true, decide_eq_true_eq] at hs
      rcases hs with hs | hs
      · exact hs
      · simp [hs] at hr
    exact hl.swtch hc (by simp [hz]) (by rw [hz]; rfl) (by simp [hpc]) (.inl rfl)
  | wakeupSelf hpc =>
    exact hl.move hpc rfl (by simp_all [Pc.admits]) rfl rfl (.inl rfl)
  | wakeup hpc hne hf =>
    exact (hl.wake hf _).move hpc rfl (by simp_all [Pc.admits]) rfl rfl (.inl rfl)
  | wakeupEnd hpc hi => exact locks_wakeupEnd hl hpc
  | kill hpc hf => exact (hl.kill hf).move hpc rfl rfl rfl rfl (.inl rfl)
  | sleep hpc hf hch =>
    exact hl.swtch hc (by simp) rfl (by simp [hpc, Pc.holdsWait]) (.inl rfl)
  | sleepWake hpc => exact hl.clearChan hpc (hrun hpc rfl) rfl rfl rfl rfl
  | yield hpc hf =>
    apply hl.swtch hc (by simp)
    · simp [Pc.admits, hpc]
    · cases hk : w.pc p <;> simp_all [Pc.preemptible, Pc.holdsWait]
    · exact .inr rfl
  | exitParent hpc hp => exact hl.move hpc rfl rfl rfl rfl (.inl rfl)
  | fork hpc | forkNext hpc | forkFull hpc | waitOther hpc | waitAlive hpc
  | waitCopyout hpc | waitEnd hpc | waitGiveUp hpc | waitStay hpc | reparentNext hpc
  | reparentEnd hpc | exitOrphan hpc | callKill hpc | killNext hpc | killEnd hpc =>
    exact hl.move hpc rfl rfl rfl rfl (.inl rfl)

theorem locks_step {l : Label} (hl : Locks w) (h : Step w l w') : Locks w' := by
  cases h with
  | sched h => exact locks_schedSection hl h
  | proc hc h => exact locks_section hl hc h
  | tick hc => exact hl.frame rfl rfl rfl rfl rfl
  | @update q hc hf =>
    have hset : Locks (w.setProc q (w.procs q).updateTime) := by
      apply hl.setProc
      unfold Proc.updateTime
      split <;> rfl
    exact hset.frame rfl rfl rfl rfl rfl
  | updateEnd hc hi => exact hl.frame rfl rfl rfl rfl rfl
  | wakeup hf hch => exact hl.wake hf _
  | setMode m => exact hl.frame rfl rfl rfl rfl rfl
  | setPriority hf priority => exact hl.setProc rfl

theorem locks_boot : Locks boot where
  state p := by
    by_cases h : p = initproc <;> simp [boot, h, Pc.admits, Proc.userinit, Proc.zero]
  wait p := by simp [boot, Pc.holdsWait]
  onCpu p hp := by
    by_cases h : p = initproc <;> simp [boot, h, Proc.userinit, Proc.zero] at hp
  run c p hc := by simp [boot] at hc
  uniq c c' p hc := by simp [boot] at hc
  held c p hc := by simp [boot] at hc
  switched c p hc := by simp [boot] at hc
  chosen c m i p hc := by simp [boot] at hc
  child p np hp := by simp [boot, Pc.child] at hp
  sole p q np hp := by simp [boot, Pc.child] at hp

end Xv6.Sections
