import Xv6.Sections.FamilySteps

namespace Xv6.Sections

open Xv6.Framework Xv6.Process

variable {w w' : World} {c : Nat} {p q : ProcId} {k k₀ : Pc} {x : Proc} {s : Int} {ch : Chan}

/-- The process is asleep in wait, or will be before anybody can take its lock. -/
def Dozing (w : World) (p : ProcId) : Prop :=
  w.pc p = .waitSleepSched ∨ (w.procs p).state = .sleeping ∧ (w.procs p).chan = some (.proc p)

/-- Whether wait has seen since it took wait_lock that slot i is not an exited child. -/
def Pc.scanned : Pc → ProcId → Bool
  | .waitScan j _, i => decide (i.val < j)
  | .waitKilled _, _ | .waitSleepLock, _ | .waitSleepUnlock, _ => true
  | _, _ => false

/-- Points in exit from the first wakeup on to the last one. -/
def Pc.wakes : Pc → Bool
  | .wakeup _ _ _ | .exitZombie _ => true
  | _ => false

attribute [grind =] Dozing

/-- Why no sleeper in wait misses an exited child. -/
structure Doze (w : World) : Prop where
  shape : ∀ q ch j s, w.pc q = .wakeup ch j (.exitZombie s) →
    ∃ r, ch = .proc r ∧ (w.procs q).parent = some r
  passed : ∀ q r j k, w.pc q = .wakeup (.proc r) j k → r.val < j → ¬ Dozing w r
  ready : ∀ q r s, w.pc q = .exitZombie s → (w.procs q).parent = some r → ¬ Dozing w r
  scanned : ∀ p i, (w.pc p).scanned i = true → (w.procs i).parent = some p →
    (w.procs i).state ≠ .zombie
  woken : ∀ p i, Dozing w p → (w.procs i).parent = some p → (w.procs i).state = .zombie →
    ∃ q j k, w.pc q = .wakeup (.proc p) j k ∧ j ≤ p.val

theorem Doze.frame (hd : Doze w)
    (hpar : ∀ i, (w'.procs i).parent = (w.procs i).parent ∨
      (w'.procs i).state ≠ .zombie ∧ (w.pc i).wakes = false)
    (hz : ∀ i, (w'.procs i).state = .zombie → (w.procs i).state = .zombie)
    (hdz : ∀ r, Dozing w' r → Dozing w r)
    (hpc : ∀ q, w'.pc q = w.pc q ∨ (w.pc q).wakes = false ∧ (w'.pc q).wakes = false ∧
      ∀ i, (w'.pc q).scanned i = true → (w.pc q).scanned i = true ∨
        (w.procs i).parent ≠ some q ∨ (w.procs i).state ≠ .zombie) : Doze w' where
  shape q ch j s h := by
    have hs := hd.shape q ch j s
    grind [Pc.wakes]
  passed q r j k h hj hr := by
    have hs := hd.passed q r j k
    grind [Pc.wakes]
  ready q r s h hr hdr := by
    have hs := hd.ready q r s
    grind [Pc.wakes]
  scanned p i h hi hzi := by
    have hs := hd.scanned p i
    grind
  woken p i h hi hzi := by
    obtain ⟨q, j, k, hq, hj⟩ := hd.woken p i (hdz p h) (by grind) (hz i hzi)
    exact ⟨q, j, k, by grind [Pc.wakes], hj⟩

theorem Doze.congr (hd : Doze w) (h1 : w'.procs = w.procs) (h2 : w'.pc = w.pc) : Doze w' := by
  apply hd.frame <;> simp [h1, h2, Dozing]

/-- A process goes on outside the wakeups of exit. -/
theorem Doze.move (hd : Doze w) (h1 : w'.procs = w.procs)
    (h2 : w'.pc = update w.pc p k) (hpc : w.pc p = k₀) (hk₀ : k₀.wakes = false)
    (hk : k.wakes = false) (hs : k ≠ .waitSleepSched)
    (hi : ∀ i, k.scanned i = true → k₀.scanned i = true ∨
      (w.procs i).parent ≠ some p ∨ (w.procs i).state ≠ .zombie) : Doze w' := by
  have h2 (r : ProcId) : w'.pc r = if r = p then k else w.pc r := by
    rw [h2, update_apply]
  apply hd.frame
  · simp [h1]
  · simp [h1]
  · intro r
    grind
  · intro q
    grind

theorem Doze.edit (hd : Doze w) (h1 : w'.procs = update w.procs q x)
    (h2 : w'.pc = update w.pc p k) (hpar : x.parent = (w.procs q).parent)
    (hz : x.state = .zombie → (w.procs q).state = .zombie)
    (hx : x.state = .sleeping → (w.procs q).state = .sleeping ∧ x.chan = (w.procs q).chan)
    (hpc : w.pc p = k₀) (hk₀ : k₀.wakes = false) (hk : k.wakes = false)
    (hs : k ≠ .waitSleepSched) (hi : ∀ i, k.scanned i = false) : Doze w' := by
  have h1 (i : ProcId) : w'.procs i = if i = q then x else w.procs i := by
    rw [h1, update_apply]
  have h2 (r : ProcId) : w'.pc r = if r = p then k else w.pc r := by
    rw [h2, update_apply]
  apply hd.frame
  · intro i
    grind
  · intro i
    grind
  · intro r
    grind
  · intro r
    grind

theorem scanned_holdsWait {i : ProcId} (h : k.scanned i = true) : k.holdsWait = true := by
  cases k <;> simp_all [Pc.scanned, Pc.holdsWait]

/-- Two holders of wait_lock are the same process. -/
theorem Locks.holder (hl : Locks w) (hp : (w.pc p).holdsWait = true)
    (hq : (w.pc q).holdsWait = true) : p = q := by
  have h1 := (hl.wait p).mpr hp
  rw [(hl.wait q).mpr hq] at h1
  exact (Option.some.inj h1).symm

/-- A process that is about to sleep in wait holds its lock. -/
theorem Locks.pc_ne_sleepSched (hl : Locks w) (hf : w.lock p = none) :
    w.pc p ≠ .waitSleepSched := by
  intro hpc
  have hs := hl.state p
  obtain ⟨c, hc⟩ := hl.onCpu p (by simpa [hpc, Pc.admits] using hs)
  have hheld := hl.held c p hc (by simp [hpc, Pc.holdsOwn])
  rw [hf] at hheld
  cases hheld

/-- wait lets go of wait_lock after a scan without an exited child. -/
theorem doze_waitSleepUnlock (hd : Doze w) (hl : Locks w) (hpc : w.pc p = .waitSleepUnlock) :
    Doze (dropWait w p .waitSleepSched) where
  shape q ch j s h := by
    have hs := hd.shape q ch j s
    grind
  passed q r j k h hj hr := by
    have hq := hl.holder (p := p) (q := q)
    grind [Pc.holdsWait]
  ready q r s h hr hdr := by
    have hq := hl.holder (p := p) (q := q)
    grind [Pc.holdsWait]
  scanned q i h := by
    have hs := hd.scanned q i
    grind [Pc.scanned]
  woken q i h hi hzi := by
    have hs := hd.scanned p i
    obtain ⟨r, j, k, hr, hj⟩ := hd.woken q i (by grind [Pc.scanned]) hi hzi
    exact ⟨r, j, k, by grind, hj⟩

theorem doze_becomeZombie (hd : Doze w) (hl : Locks w) (hpc : w.pc p = .exitZombie s) :
    Doze (becomeZombie w c p s) where
  shape q ch j t h := by
    have hs := hd.shape q ch j t
    grind
  passed q r j k h hj hr := by
    have hs := hd.passed q r j k
    grind
  ready q r t h hr hdr := by
    have hs := hd.ready q r t
    grind
  scanned q i h := by
    have hq := hl.holder (p := p) (q := q)
    have hh := scanned_holdsWait (k := w.pc q) (i := i)
    grind [Pc.scanned, Pc.holdsWait]
  woken q i h hi hzi := by
    have hs := hd.ready p q s hpc
    obtain ⟨r, j, k, hr, hj⟩ := hd.woken q i (by grind)
      (by grind) (by grind)
    exact ⟨r, j, k, by grind, hj⟩

theorem doze_reparent (hd : Doze w) (hl : Locks w)
    (hpc : w.pc p = .exitReparent s q) :
    Doze ((w.setProc q { w.procs q with parent := some initproc }).setPc p
      (.wakeup (.proc initproc) 0 (.exitReparent s (q + 1)))) where
  shape r ch j t h := by
    have hr := hl.holder (p := p) (q := r)
    grind [Pc.holdsWait]
  passed r t j k h hj hr := by
    have hs := hd.passed r t j k
    grind
  ready r t u h hr hdr := by
    have hr := hl.holder (p := p) (q := r)
    grind [Pc.holdsWait]
  scanned r i h := by
    have hr := hl.holder (p := p) (q := r)
    have hh := scanned_holdsWait (k := w.pc r) (i := i)
    grind [Pc.scanned, Pc.holdsWait]
  woken r i h hi hzi := by
    by_cases hiq : i = q
    · exact ⟨p, 0, .exitReparent s (q + 1), by grind, by omega⟩
    · obtain ⟨t, j, m, ht, hj⟩ := hd.woken r i (by grind) (by grind) (by grind)
      exact ⟨t, j, m, by grind, hj⟩

/-- exit starts to wake its parent, or has none to wake. -/
theorem Doze.begin (hd : Doze w) (hpc : w.pc p = k₀) (hk₀ : k₀.wakes = false)
    (h1 : ∀ ch j s, k = .wakeup ch j (.exitZombie s) →
      ∃ r, ch = .proc r ∧ (w.procs p).parent = some r)
    (h2 : ∀ ch j k', k = .wakeup ch j k' → j = 0)
    (h3 : ∀ s, k = .exitZombie s → (w.procs p).parent = none)
    (h4 : k.wakes = true) : Doze (w.setPc p k) where
  shape r ch j t h := by
    have hs := hd.shape r ch j t
    grind
  passed r t j k h hj hr := by
    have hs := hd.passed r t j k
    grind [Pc.wakes]
  ready r t u h hr hdr := by
    have hs := hd.ready r t u
    grind [Pc.wakes]
  scanned r i h := by
    have hs := hd.scanned r i
    have hk : k.scanned i = false := by cases k <;> simp_all [Pc.wakes, Pc.scanned]
    grind
  woken r i h hi hzi := by
    obtain ⟨t, j, m, ht, hj⟩ := hd.woken r i (by grind [Pc.wakes]) hi hzi
    exact ⟨t, j, m, by grind [Pc.wakes], hj⟩

theorem doze_exitParent (hd : Doze w) (hpc : w.pc p = .exitParent s)
    (hp : (w.procs p).parent = some q) :
    Doze (w.setPc p (.wakeup (.proc q) 0 (.exitZombie s))) := by
  apply hd.begin hpc rfl _ _ _ rfl
  · rintro ch j t ⟨⟩
    exact ⟨q, rfl, hp⟩
  · rintro ch j k ⟨⟩
    rfl
  · simp

theorem doze_exitOrphan (hd : Doze w) (hpc : w.pc p = .exitParent s)
    (hp : (w.procs p).parent = none) : Doze (w.setPc p (.exitZombie s)) := by
  apply hd.begin hpc rfl _ _ _ rfl
  · simp
  · simp
  · intro t _
    exact hp

theorem Doze.advance (hd : Doze w) (hpc : w.pc p = .wakeup ch q k)
    (hpc' : ∀ r, w'.pc r = if r = p then .wakeup ch (q + 1) k else w.pc r)
    (hpar : ∀ i, (w'.procs i).parent = (w.procs i).parent)
    (hz : ∀ i, (w'.procs i).state = .zombie → (w.procs i).state = .zombie)
    (hdz : ∀ r, Dozing w' r → Dozing w r) (hq : ch = .proc q → ¬ Dozing w' q) : Doze w' where
  shape r ch' j s h := by
    have hs := hd.shape r ch' j s
    have hp := hd.shape p ch q s
    grind
  passed r t j k' h hj ht := by
    have hs := hd.passed r t j k'
    have hp := hd.passed p t q k
    by_cases htq : t = q
    · grind
    · grind
  ready r t s h ht hdt := by
    have hs := hd.ready r t s
    grind
  scanned r i h := by
    have hs := hd.scanned r i
    grind [Pc.scanned]
  woken r i h hi hzi := by
    obtain ⟨t, j, m, ht, hj⟩ := hd.woken r i (hdz r h) (by grind) (hz i hzi)
    by_cases htp : t = p
    · subst htp
      rw [hpc] at ht
      injection ht with h1 h2 h3
      have hne : r ≠ q := by
        rintro rfl
        exact hq h1 h
      have hne := Fin.val_ne_of_ne hne
      exact ⟨t, q + 1, k, by grind, by omega⟩
    · exact ⟨t, j, m, by grind, hj⟩

theorem doze_wakeupSelf (hd : Doze w) (hl : Locks w) (hpc : w.pc p = .wakeup ch p k) :
    Doze (w.setPc p (.wakeup ch (p + 1) k)) := by
  have hrun := hl.running (p := p) (by simp [hpc, Pc.holdsOwn])
  apply hd.advance hpc
  · simp
  · simp
  · simp
  · intro r
    grind
  · grind

theorem doze_wakeup (hd : Doze w) (hl : Locks w) (hpc : w.pc p = .wakeup ch q k)
    (hne : q ≠ p) (hf : w.lock q = none) :
    Doze ((w.setProc q ((w.procs q).wakeup ch)).setPc p (.wakeup ch (q + 1) k)) := by
  have hkin := kin_wakeup (w.procs q) ch
  apply hd.advance hpc
  · simp
  · intro i
    have hpar := Proc.wakeup_parent (w.procs q) ch
    grind
  · intro i
    have hz := hkin.zombie
    grind
  · intro r
    grind [Proc.wakeup]
  · rintro rfl
    have hpcq := hl.pc_ne_sleepSched hf
    grind [Proc.wakeup]

theorem doze_wakeupEnd (hd : Doze w) (hl : Locks w) {i : Nat}
    (hpc : w.pc p = .wakeup ch i k) (hi : NPROC ≤ i) : Doze (w.setPc p k) := by
  have hk := hl.afterWakeup hpc
  exact
    { shape := fun r ch' j t h => by
        have hs := hd.shape r ch' j t
        grind [Pc.afterWakeup]
      passed := fun r t j m h hj ht => by
        have hs := hd.passed r t j m
        grind [Pc.afterWakeup]
      ready := fun r t u h ht hdt => by
        have hr := hd.ready r t u
        have hsh := hd.shape p ch i u
        have hpa := hd.passed p t i k
        grind [Pc.afterWakeup]
      scanned := fun r j h => by
        have hs := hd.scanned r j
        have hk : k.scanned j = false := by cases k <;> simp_all [Pc.afterWakeup, Pc.scanned]
        grind
      woken := fun r j h hj hzj => by
        obtain ⟨t, l, m, ht, hl⟩ := hd.woken r j (by grind [Pc.afterWakeup]) hj hzj
        exact ⟨t, l, m, by grind, hl⟩ }

/-- Only a running process is in exit. -/
theorem Locks.not_wakes (hl : Locks w) (hr : (w.procs p).state ≠ .running) :
    (w.pc p).wakes = false := by
  have hs := hl.state p
  cases hk : w.pc p <;> simp_all [Pc.admits, Pc.wakes]

theorem doze_forkAt (hd : Doze w) (hl : Locks w) (hf : Family w) {i : Nat} (hpc : w.pc p = .forkAlloc i)
    (hu : (w.procs q).state = .unused) (ok : Bool) : Doze (forkAt w p q ok) := by
  cases ok with
  | false =>
    exact hd.edit rfl rfl (hf.free q hu).symm (by simp [Proc.freeproc])
      (by simp [Proc.freeproc]) hpc rfl rfl (by simp) fun _ => rfl
  | true =>
    have hq := hl.not_wakes (p := q) (by simp [hu])
    apply hd.frame
    · intro j
      grind
    · intro j
      grind
    · intro r
      grind
    · intro r
      grind [Pc.wakes, Pc.scanned]

theorem doze_forkParent (hd : Doze w) (hl : Locks w) (hpc : w.pc p = .forkParent q) :
    Doze ((w.setProc q { w.procs q with parent := some p }).setPc p (.forkReady q)) := by
  have hused := hl.child p q (by simp [hpc, Pc.child])
  have hq := hl.not_wakes (p := q) (by simp [hused])
  apply hd.frame
  · intro j
    grind
  · intro j
    grind
  · intro r
    grind
  · intro r
    grind [Pc.wakes, Pc.scanned]

theorem doze_reapAt (hd : Doze w) (hl : Locks w) {i : Nat} {b : Bool}
    (hpc : w.pc p = .waitScan i b) (hz : (w.procs q).state = .zombie) : Doze (reapAt w p q) := by
  have hq := hl.not_wakes (p := q) (by simp [hz])
  apply hd.frame
  · intro j
    grind
  · intro j
    grind
  · intro r
    grind
  · intro r
    grind [Pc.wakes, Pc.scanned]

/-- A process leaves its CPU, and not in wait unless it was about to. -/
theorem doze_swtch (hd : Doze w) (hk₀ : (w.pc p).wakes = false) (hk : k.wakes = false)
    (hks : k ≠ .waitSleepSched) (hi : ∀ i, k.scanned i = false)
    (hpar : x.parent = (w.procs p).parent)
    (hz : x.state = .zombie → (w.procs p).state = .zombie)
    (hs : w.pc p = .waitSleepSched ∨ x.state ≠ .sleeping ∨ x.chan ≠ some (.proc p)) :
    Doze (swtch w c p x k) := by
  apply hd.frame
  · intro j
    grind
  · intro j
    grind
  · intro r
    grind
  · intro r
    grind

theorem preemptible_wakes (h : k.preemptible = true) : k.wakes = false := by
  cases k <;> simp_all [Pc.preemptible, Pc.wakes]

theorem preemptible_scanned (h : k.preemptible = true) (i : ProcId) : k.scanned i = false := by
  cases k <;> simp_all [Pc.preemptible, Pc.scanned]

theorem doze_waitScan (hd : Doze w) {b b' : Bool} (hpc : w.pc p = .waitScan q b)
    (hq : (w.procs q).parent ≠ some p ∨ (w.procs q).state ≠ .zombie) :
    Doze (w.setPc p (.waitScan (q + 1) b')) := by
  refine hd.move rfl rfl hpc rfl rfl (by simp) fun i hi => ?_
  by_cases h : i = q
  · right
    rw [h]
    exact hq
  · left
    have hne := Fin.val_ne_of_ne h
    simp only [Pc.scanned, decide_eq_true_eq] at hi ⊢
    omega

theorem doze_section (hd : Doze w) (hl : Locks w) (hf : Family w) (hc : w.cpu c = .run p)
    (h : Section w c p w') : Doze w' := by
  have hs := hl.state p
  have hrun {k : Pc} (hpc : w.pc p = k) (hk : k.admits .zombie = false) :=
    hl.running_of_cpu hc hpc hk
  cases h with
  | forkAlloc hpc _ hu ok => exact doze_forkAt hd hl hf hpc hu ok
  | forkParent hpc => exact doze_forkParent hd hl hpc
  | forkReady hpc =>
    exact hd.edit rfl rfl rfl (by simp) (by simp) hpc rfl rfl (by simp) fun _ => rfl
  | yielded hpc =>
    have hk := hl.preemptible hpc
    refine hd.move rfl rfl hpc rfl (preemptible_wakes hk) ?_ ?_
    · rintro rfl
      cases hk
    · simp [preemptible_scanned hk]
  | yield hpc =>
    exact doze_swtch hd (preemptible_wakes hpc) rfl (by simp) (fun _ => rfl) rfl (by simp)
      (.inr (.inl (by simp)))
  | waitSleepSched hpc =>
    exact doze_swtch hd (by simp [hpc, Pc.wakes]) rfl (by simp) (fun _ => rfl) rfl (by simp)
      (.inl hpc)
  | sleep hpc _ hch =>
    exact doze_swtch hd (by simp [hpc, Pc.wakes]) rfl (by simp) (fun _ => rfl) rfl (by simp)
      (.inr (.inr (by simp [hch])))
  | waitWake hpc | sleepWake hpc =>
    exact hd.edit rfl rfl rfl id (by simp [hrun hpc rfl]) hpc rfl rfl (by simp) fun _ => rfl
  | reap hpc _ hq hz => exact doze_reapAt hd hl hpc hz
  | waitOther hpc hq => exact doze_waitScan hd hpc (.inl hq)
  | waitAlive hpc _ hq hs => exact doze_waitScan hd hpc (.inr hs)
  | waitEnd hpc hi =>
    refine hd.move rfl rfl hpc rfl rfl (by simp) fun i _ => .inl ?_
    simp only [Pc.scanned, decide_eq_true_eq]
    omega
  | waitSleepUnlock hpc => exact doze_waitSleepUnlock hd hl hpc
  | exit hpc hi s =>
    exact hd.edit rfl rfl rfl id (fun h => ⟨h, rfl⟩) hpc rfl rfl (by simp) fun _ => rfl
  | exitTime hpc | exitWaiting hpc =>
    exact hd.edit rfl rfl rfl id (fun h => ⟨h, rfl⟩) hpc rfl rfl (by simp) fun _ => rfl
  | reparent hpc hq => exact doze_reparent hd hl hpc
  | exitParent hpc hp => exact doze_exitParent hd hpc hp
  | exitOrphan hpc hp => exact doze_exitOrphan hd hpc hp
  | exitZombie hpc => exact doze_becomeZombie hd hl hpc
  | exitSched hpc =>
    exact doze_swtch hd (by simp [hpc, Pc.wakes]) rfl (by simp) (fun _ => rfl) rfl id
      (.inr (.inl fun h => by simp [hpc, h, Pc.admits] at hs))
  | wakeupSelf hpc => exact doze_wakeupSelf hd hl hpc
  | wakeup hpc hne hf => exact doze_wakeup hd hl hpc hne hf
  | wakeupEnd hpc hi => exact doze_wakeupEnd hd hl hpc hi
  | kill hpc hf =>
    refine hd.edit rfl rfl rfl ?_ ?_ hpc rfl rfl (by simp) fun _ => rfl
    · exact (kin_kill _).zombie.mp
    · grind [Proc.kill]
  | waitGiveUp hpc | waitCopyout hpc | waitStay hpc | waitSleepLock hpc | reparentNext hpc
  | reparentEnd hpc | exitLock hpc | exitUnlock hpc | waitUnlock hpc | waitLock hpc
  | fork hpc | forkret hpc | forkNext hpc | forkFull hpc | wait hpc | callKill hpc | killNext hpc
  | killEnd hpc =>
    exact hd.move rfl rfl hpc rfl rfl (by simp) (by simp [Pc.scanned])

/-- A change of a record by a step that moves no process. -/
theorem Doze.write (hd : Doze w) (h1 : w'.procs = update w.procs q x)
    (h2 : w'.pc = w.pc) (hpar : x.parent = (w.procs q).parent)
    (hz : x.state = .zombie → (w.procs q).state = .zombie)
    (hx : x.state = .sleeping → (w.procs q).state = .sleeping ∧ x.chan = (w.procs q).chan) :
    Doze w' := by
  have h1 (i : ProcId) : w'.procs i = if i = q then x else w.procs i := by
    rw [h1, update_apply]
  apply hd.frame
  · intro i
    grind
  · intro i
    grind
  · intro r
    grind
  · simp [h2]

theorem doze_schedSection (hd : Doze w) (h : SchedSection w c w') : Doze w' := by
  cases h with
  | first | last =>
    exact hd.write rfl rfl rfl (by simp [Proc.dispatch]) (by simp [Proc.dispatch])
  | _ => exact hd.congr rfl rfl

theorem doze_step {l : Label} (hd : Doze w) (hl : Locks w) (hf : Family w) (h : Step w l w') :
    Doze w' := by
  cases h with
  | sched h => exact doze_schedSection hd h
  | proc hc h => exact doze_section hd hl hf hc h
  | tick | updateEnd | setMode => exact hd.congr rfl rfl
  | update =>
    exact hd.write rfl rfl (Proc.updateTime_parent _) (kin_updateTime _).zombie.mp
      (by grind [Proc.updateTime])
  | wakeup =>
    exact hd.write rfl rfl (Proc.wakeup_parent _ _) (kin_wakeup _ _).zombie.mp
      (by grind [Proc.wakeup])
  | setPriority => exact hd.write rfl rfl rfl id fun h => ⟨h, rfl⟩

theorem doze_boot : Doze boot where
  shape q ch j s h := by simp [boot] at h
  passed q r j k h := by simp [boot] at h
  ready q r s h := by simp [boot] at h
  scanned p i h := by simp [boot, Pc.scanned] at h
  woken p i _ hi := by simp [boot_parent] at hi

end Xv6.Sections
