import Xv6.Sections.Model

namespace Xv6.Sections

open Xv6.Framework Xv6.Process

variable {w w' : World} {c : Nat} {p q : ProcId} {k : Pc} {x : Proc}

/-- Points at which a running process holds its own lock. -/
def Pc.holdsOwn : Pc → Bool
  | .forkret | .yielded _ | .waitSleepUnlock | .waitSleepSched | .waitWake | .exitUnlock
  | .exitSched | .sleepWake => true
  | _ => false

def Pc.holdsWait : Pc → Bool
  | .waitScan _ _ | .waitKilled _ | .waitUnlock _ | .waitSleepLock | .waitSleepUnlock
  | .exitTime _ | .exitWaiting _ | .exitReparent _ _ | .exitParent _ | .exitZombie _
  | .exitUnlock | .wakeup _ _ _ => true
  | _ => false

/-- Where exit goes on after a wakeup. -/
def Pc.afterWakeup : Pc → Bool
  | .exitReparent _ _ | .exitZombie _ => true
  | _ => false

/-- The states a process can be in at a point. A process that is not running resumes at one of
the first four. -/
def Pc.admits : Pc → ProcState → Bool
  | .forkret, s | .waitWake, s | .sleepWake, s => s ≠ .zombie
  | .yielded k, s => s ≠ .zombie && k.preemptible
  | .wakeup _ _ k, s => s = .running && k.afterWakeup
  | .exitUnlock, s => s = .zombie
  | .exitSched, s => s = .zombie || s = .unused
  | _, s => s = .running

/-- The new process that a fork has still to make RUNNABLE. -/
def Pc.child : Pc → Option ProcId
  | .forkParent np | .forkReady np => some np
  | .yielded k => k.child
  | _ => none

/-- Who runs what, and who holds which lock. -/
structure Locks (w : World) : Prop where
  state : ∀ p, (w.pc p).admits (w.procs p).state = true
  wait : ∀ p, w.waitLock = some p ↔ (w.pc p).holdsWait = true
  onCpu : ∀ p, (w.procs p).state = .running → ∃ c, w.cpu c = .run p
  run : ∀ c p, w.cpu c = .run p → (w.procs p).state = .running ∨ (w.procs p).state = .zombie
  uniq : ∀ c c' p, w.cpu c = .run p → w.cpu c' = .run p → c = c'
  held : ∀ c p, w.cpu c = .run p → (w.pc p).holdsOwn = true → w.lock p = some c
  switched : ∀ c p, w.cpu c = .switched p → w.lock p = some c ∧ (w.procs p).state ≠ .running
  chosen : ∀ c m i p, w.cpu c = .scan m i (some p) →
    w.lock p = some c ∧ (w.procs p).state = .runnable
  child : ∀ p np, (w.pc p).child = some np → (w.procs np).state = .used
  sole : ∀ p q np, (w.pc p).child = some np → (w.pc q).child = some np → p = q

theorem holdsOwn_of_zombie (h : k.admits .zombie = true) : k.holdsOwn = true := by
  cases k <;> simp_all [Pc.admits, Pc.holdsOwn]

theorem running_of_free_pc (h : k.admits x.state = true) (ho : k.holdsOwn = false) :
    x.state = .running := by
  cases k <;> simp_all [Pc.admits, Pc.holdsOwn]

theorem holdsOwn_of_not_running (h : k.admits x.state = true) (hr : x.state ≠ .running) :
    k.holdsOwn = true := by
  cases ho : k.holdsOwn with
  | true => rfl
  | false => exact absurd (running_of_free_pc h ho) hr

theorem Locks.running (hl : Locks w) (ho : (w.pc p).holdsOwn = false) :
    (w.procs p).state = .running :=
  running_of_free_pc (hl.state p) ho

theorem Locks.preemptible (hl : Locks w) (hpc : w.pc p = .yielded k) : k.preemptible = true := by
  have hs := hl.state p
  simp_all [Pc.admits]

theorem Locks.afterWakeup (hl : Locks w) {ch : Chan} {i : Nat} (hpc : w.pc p = .wakeup ch i k) :
    k.afterWakeup = true := by
  have hs := hl.state p
  simp_all [Pc.admits]

theorem Locks.running_of_cpu (hl : Locks w) (hc : w.cpu c = .run p) (hpc : w.pc p = k)
    (hk : k.admits .zombie = false) : (w.procs p).state = .running := by
  have hs := hl.state p
  rcases hl.run c p hc with hr | hr
  · exact hr
  · rw [hpc, hr, hk] at hs
    cases hs

theorem Locks.idle (hl : Locks w) (hf : w.lock p = none) (hr : (w.procs p).state ≠ .running) :
    w.cpu c ≠ .run p := by
  intro hc
  have hheld := hl.held c p hc (holdsOwn_of_not_running (hl.state p) hr)
  rw [hf] at hheld
  cases hheld

theorem Locks.not_switched (hl : Locks w) (hf : w.lock p = none) : w.cpu c ≠ .switched p := by
  intro hc
  have hheld := (hl.switched c p hc).1
  rw [hf] at hheld
  cases hheld

theorem setProc_state (hx : x.state = (w.procs p).state) (q : ProcId) :
    ((w.setProc p x).procs q).state = (w.procs q).state := by
  grind

/-- A change of a record that keeps the state. -/
theorem Locks.setProc (hl : Locks w) (hx : x.state = (w.procs p).state) :
    Locks (w.setProc p x) where
  state q := by
    rw [setProc_state hx]
    exact hl.state q
  wait := hl.wait
  onCpu q hq := hl.onCpu q (by rwa [setProc_state hx] at hq)
  run c q hc := by
    rw [setProc_state hx]
    exact hl.run c q hc
  uniq := hl.uniq
  held := hl.held
  switched c q hc := by
    rw [setProc_state hx]
    exact hl.switched c q hc
  chosen c m i q hc := by
    rw [setProc_state hx]
    exact hl.chosen c m i q hc
  child q np hq := by
    rw [setProc_state hx]
    exact hl.child q np hq
  sole := hl.sole

theorem Locks.setState (hl : Locks w) (hf : w.lock p = none)
    (hr : (w.procs p).state ≠ .running) (hx : x.state ≠ .running)
    (ha : (w.pc p).admits x.state = true) (hn : ∀ q, (w.pc q).child ≠ some p) :
    Locks (w.setProc p x) where
  state q := by
    have hq := hl.state q
    grind
  wait := hl.wait
  onCpu q hq := hl.onCpu q (by grind)
  run c q hc := by
    have hq := hl.run c q hc
    have hne := hl.idle (c := c) hf hr
    grind
  uniq := hl.uniq
  held := hl.held
  switched c q hc := by
    have hq := hl.switched c q hc
    grind
  chosen c m i q hc := by
    have hq := hl.chosen c m i q hc
    grind
  child q np hq := by
    have h := hl.child q np hq
    grind
  sole := hl.sole

theorem Locks.not_child (hl : Locks w) (h : (w.procs p).state ≠ .used) (q : ProcId) :
    (w.pc q).child ≠ some p :=
  fun hq => h (hl.child q p hq)

/-- p goes on at k; of the locks between processes only wait_lock and its own may change hands. -/
theorem Locks.goto (hl : Locks w) (hprocs : w'.procs = w.procs) (hcpu : w'.cpu = w.cpu)
    (hpc : ∀ q, w'.pc q = (w.setPc p k).pc q) (hlock : ∀ q, q ≠ p → w'.lock q = w.lock q)
    (hp : w'.lock p = w.lock p ∨ (w.procs p).state = .running)
    (ha : k.admits (w.procs p).state = true) (hk : k.child = none ∨ k.child = (w.pc p).child)
    (hw : ∀ q, w'.waitLock = some q ↔ ((w.setPc p k).pc q).holdsWait = true)
    (ho : ∀ c, w.cpu c = .run p → k.holdsOwn = true → w'.lock p = some c) : Locks w' where
  state q := by
    have hq := hl.state q
    grind
  wait q := by
    rw [hpc]
    exact hw q
  onCpu := by
    rw [hprocs, hcpu]
    exact hl.onCpu
  run := by
    rw [hprocs, hcpu]
    exact hl.run
  uniq := by
    rw [hcpu]
    exact hl.uniq
  held c q hc := by
    have hq := hl.held c q
    grind
  switched c q hc := by
    have hq := hl.switched c q
    grind
  chosen c m i q hc := by
    have hq := hl.chosen c m i q
    grind
  child q np hq := by
    have h := hl.child q np
    grind
  sole q r np hq hr := by
    have h := hl.sole q r np
    grind

theorem Locks.setPc (hl : Locks w) (ha : k.admits (w.procs p).state = true)
    (hw : k.holdsWait = (w.pc p).holdsWait) (hk : k.child = none ∨ k.child = (w.pc p).child)
    (ho : ∀ c, w.cpu c = .run p → k.holdsOwn = true → w.lock p = some c) :
    Locks (w.setPc p k) := by
  refine hl.goto rfl rfl (fun _ => rfl) (fun _ _ => rfl) (.inl rfl) ha hk (fun q => ?_) ho
  have hq := hl.wait q
  grind

theorem Locks.setLock (hl : Locks w) (hf : w.lock p = none) (o : Option Nat) :
    Locks (w.setLock p o) where
  state := hl.state
  wait := hl.wait
  onCpu := hl.onCpu
  run := hl.run
  uniq := hl.uniq
  held c q hc ho := by
    have hq := hl.held c q hc ho
    grind
  switched c q hc := by
    have hq := hl.switched c q hc
    grind
  chosen c m i q hc := by
    have hq := hl.chosen c m i q hc
    grind
  child := hl.child
  sole := hl.sole

theorem Locks.takeWait (hl : Locks w) (hf : w.waitLock = none)
    (ha : k.admits (w.procs p).state = true) (hw : k.holdsWait = true)
    (ho : k.holdsOwn = false) (hk : k.child = none) : Locks (takeWait w p k) := by
  refine hl.goto rfl rfl (fun _ => rfl) (fun _ _ => rfl) (.inl rfl) ha (.inl hk) (fun q => ?_)
    (by simp [ho])
  have hq := hl.wait q
  grind

theorem Locks.dropWait (hl : Locks w) (hf : (w.pc p).holdsWait = true)
    (ha : k.admits (w.procs p).state = true) (hw : k.holdsWait = false)
    (ho : k.holdsOwn = (w.pc p).holdsOwn) (hk : k.child = none) : Locks (dropWait w p k) := by
  refine hl.goto rfl rfl (fun _ => rfl) (fun _ _ => rfl) (.inl rfl) ha (.inl hk) (fun q => ?_)
    fun c hc h => hl.held c p hc (ho ▸ h)
  have hq := hl.wait q
  have hp := (hl.wait p).mpr hf
  grind

theorem Locks.dropOwn (hl : Locks w) (hr : (w.procs p).state = .running)
    (ha : k.admits .running = true) (hw : k.holdsWait = (w.pc p).holdsWait)
    (ho : k.holdsOwn = false) (hk : k.child = none ∨ k.child = (w.pc p).child) :
    Locks (dropOwn w p k) := by
  refine hl.goto rfl rfl (fun _ => rfl) (fun q hq => ?_) (.inr hr) (hr ▸ ha) hk (fun q => ?_)
    (by simp [ho])
  · simp [Sections.dropOwn, hq]
  · have hq := hl.wait q
    grind

/-- The process that CPU c runs gives the CPU to the scheduler. -/
theorem Locks.swtch (hl : Locks w) (hc : w.cpu c = .run p) (hx : x.state ≠ .running)
    (ha : k.admits x.state = true) (hw : k.holdsWait = (w.pc p).holdsWait)
    (hk : k.child = none ∨ k.child = (w.pc p).child) : Locks (swtch w c p x k) where
  state q := by
    have hq := hl.state q
    grind
  wait q := by
    have hq := hl.wait q
    grind
  onCpu q hq := by
    obtain ⟨d, hd⟩ := hl.onCpu q (by grind)
    exact ⟨d, by grind⟩
  run d q hd := by
    have hd' : w.cpu d = .run q := by grind
    have hq := hl.run d q hd'
    have hu := hl.uniq c d p hc
    grind
  uniq d e q hd he := hl.uniq d e q (by grind) (by grind)
  held d q hd ho := by
    have hd' : w.cpu d = .run q := by grind
    have hq := hl.held d q hd'
    have hu := hl.uniq c d p hc
    grind
  switched d q hd := by
    have hq := hl.switched d q
    have hp := hl.run c p hc
    have hz := holdsOwn_of_zombie (k := w.pc p)
    have ho := hl.held c p hc
    have hs := hl.state p
    grind
  chosen d m i q hd := by
    have hq := hl.chosen d m i q (by grind)
    have hp := hl.run c p hc
    grind
  child q np hq := by
    have h := hl.child q np
    have hp := hl.run c p hc
    grind
  sole q r np hq hr := by
    have h := hl.sole q r np
    grind

/-- A runnable process that is chosen by this CPU, or whose lock is free, starts to run. -/
theorem Locks.dispatch (hl : Locks w) (hr : (w.procs p).state = .runnable)
    (hf : w.lock p = none ∨ w.lock p = some c) (hs : ∀ q, w.cpu c ≠ .run q) :
    Locks (dispatch w c p) where
  state q := by
    have hq := hl.state q
    by_cases h : q = p
    · subst h
      have hk : (w.pc q).admits .running = true := by
        cases hpc : w.pc q <;> simp_all [Pc.admits]
      grind [Proc.dispatch]
    · grind
  wait q := hl.wait q
  onCpu q hq := by
    by_cases h : q = p
    · exact ⟨c, by grind⟩
    · obtain ⟨d, hd⟩ := hl.onCpu q (by grind)
      exact ⟨d, by grind⟩
  run d q hd := by
    have hq := hl.run d q
    grind [Proc.dispatch]
  uniq d e q hd he := by
    have h1 := hl.uniq d e q
    have h2 := hl.run d q
    have h3 := hl.run e q
    grind
  held d q hd ho := by
    have h1 := hl.held d q
    grind
  switched d q hd := by
    have h1 := hl.switched d q
    grind
  chosen d m i q hd := by
    have h1 := hl.chosen d m i q
    grind
  child q np hq := by
    have h := hl.child q np hq
    grind
  sole := hl.sole

/-- CPU c scans on after it has let go of the lock of p, or has chosen p. -/
theorem Locks.rescan (hl : Locks w) {v : Option Nat} {o : Option ProcId} (m : SchedMode) (j : Nat)
    (hc : ∀ q, w.cpu c ≠ .run q) (hp : ∀ d, w.lock p = some d → d = c)
    (ho : ∀ q, o = some q → q = p ∧ v = some c ∧ (w.procs p).state = .runnable) :
    Locks ((w.setLock p v).setCpu c (.scan m j o)) where
  state := hl.state
  wait := hl.wait
  onCpu q hq := by
    obtain ⟨d, hd⟩ := hl.onCpu q hq
    exact ⟨d, by grind⟩
  run d q hd := hl.run d q (by grind)
  uniq d e q hd he := hl.uniq d e q (by grind) (by grind)
  held d q hd ho := by
    have h1 := hl.held d q
    grind
  switched d q hd := by
    have h1 := hl.switched d q
    grind
  chosen d n i q hd := by
    have h1 := hl.chosen d n i q
    grind
  child := hl.child
  sole := hl.sole

theorem Locks.afterSwitch (hl : Locks w) (hc : w.cpu c = .switched p) (m : SchedMode) :
    Locks ((w.setLock p none).setCpu c (.scan m 0 none)) := by
  have hp := (hl.switched c p hc).1
  exact hl.rescan m 0 (by simp [hc]) (by simp [hp]) nofun

theorem Locks.scanOn (hl : Locks w) {m m' : SchedMode} {i j : Nat} {o : Option ProcId}
    (hc : w.cpu c = .scan m i o) {o' : Option ProcId} (ho : o' = o ∨ o' = none) :
    Locks (w.setCpu c (.scan m' j o')) where
  state := hl.state
  wait := hl.wait
  onCpu q hq := by
    obtain ⟨d, hd⟩ := hl.onCpu q hq
    exact ⟨d, by grind⟩
  run d q hd := hl.run d q (by grind)
  uniq d e q hd he := hl.uniq d e q (by grind) (by grind)
  held d q hd := hl.held d q (by grind)
  switched d q hd := hl.switched d q (by grind)
  chosen d n l q hd := by
    have h1 := hl.chosen d n l q
    have h2 := hl.chosen c m i q
    grind
  child := hl.child
  sole := hl.sole

theorem Locks.unchoose (hl : Locks w) {m : SchedMode} {i : Nat}
    (hc : w.cpu c = .scan m i (some q)) (j : Nat) :
    Locks ((w.setLock q none).setCpu c (.scan m j none)) := by
  have hq := (hl.chosen c m i q hc).1
  exact hl.rescan m j (by simp [hc]) (by simp [hq]) nofun

/-- A scan chooses a runnable process whose lock is free. -/
theorem Locks.choose (hl : Locks w) {m : SchedMode} {i : Nat} (hc : w.cpu c = .scan m i none)
    (hf : w.lock p = none) (hr : (w.procs p).state = .runnable) (j : Nat) :
    Locks ((w.setLock p (some c)).setCpu c (.scan m j (some p))) :=
  hl.rescan m j (by simp [hc]) (by simp [hf]) fun _ h => ⟨(Option.some.inj h).symm, rfl, hr⟩

theorem Locks.becomeZombie (hl : Locks w) (hc : w.cpu c = .run p) {status : Int}
    (hpc : w.pc p = .exitZombie status) (hf : w.lock p = none) :
    Locks (becomeZombie w c p status) where
  state q := by
    have hq := hl.state q
    grind [Pc.admits]
  wait q := by
    have hq := hl.wait q
    grind [Pc.holdsWait]
  onCpu q hq := by
    obtain ⟨d, hd⟩ := hl.onCpu q (by grind)
    exact ⟨d, hd⟩
  run d q hd := by
    have hq := hl.run d q hd
    grind
  uniq := hl.uniq
  held d q hd ho := by
    have hq := hl.held d q hd
    have hu := hl.uniq c d p hc
    grind
  switched d q hd := by
    have hq := hl.switched d q hd
    grind
  chosen d m i q hd := by
    have hq := hl.chosen d m i q hd
    grind
  child q np hq := by
    have h := hl.child q np
    have hp := hl.state p
    grind [Pc.child, Pc.admits]
  sole q r np hq hr := by
    have h := hl.sole q r np
    grind [Pc.child]

end Xv6.Sections
