import Xv6.Sections.Family

namespace Xv6.Sections

open Xv6.Framework Xv6.Process

variable {w w' : World} {c : Nat} {p q : ProcId} {k : Pc} {x y : Proc}

theorem ne_of_alive (h : alive (w.procs p).state = true) (hu : (w.procs q).state = .unused) :
    p ≠ q := by
  rintro rfl
  rw [hu] at h
  cases h

theorem parents_forkAt (hf : Family w) (hl : Locks w) (hrun : (w.procs p).state = .running)
    (hu : (w.procs q).state = .unused) : Parents (forkAt w p q true) where
  init := by
    have h := hf.init
    have hne := ne_of_alive h.1 hu
    grind [Pc.status]
  free i hi := by
    have h := hf.free i
    grind
  live i r hr := by
    have h := hf.live i r
    grind [Pc.past, alive]
  creator i r hr := by
    have h := hf.creator i r
    have h' := hf.live i r
    have hq := hf.free q hu
    have hi := hf.lt i
    grind [alive]
  pending r np hr := by
    have h := hf.pending r np
    have h' := hl.child r np
    have hi := hf.lt np
    grind [Pc.child]

theorem right_of_lt {h h' : Hist} {r : Reap} (hr : r.Right h)
    (h1 : h'.pids r.child = h.pids r.child) (h2 : h'.creator r.child = h.creator r.child)
    (h3 : h'.exited r.child = h.exited r.child)
    (h4 : ∀ n, (h.exited n).isSome = true → (h'.exited n).isSome = true) : r.Right h' where
  pid := by rw [h1, hr.pid]
  status := by rw [h3, hr.status]
  parent := by
    rw [h2]
    exact hr.parent.imp_right fun h => ⟨h.1, h4 _ h.2⟩

theorem idents_forkAt (hf : Family w) : Idents (forkAt w p q true) where
  lt i := by
    have h := hf.lt i
    grind
  inj i j h1 h2 := by
    have h := hf.inj i j
    have hi := hf.lt i
    have hj := hf.lt j
    grind
  pids i h1 := by
    have h := hf.pids i
    have hi := hf.lt i
    grind
  status i s h1 h2 := by
    have h := hf.status i s
    grind [Pc.status]
  zombie i h1 := by
    have h := hf.zombie i
    grind
  fresh i h1 r hr := by
    have h := hf.fresh i
    have ho := hf.old r hr
    grind
  old r hr := by
    have h := hf.old r hr
    grind
  once := hf.once
  right r hr := by
    have ho := hf.old r hr
    exact right_of_lt (hf.right r hr) (by grind) (by grind) rfl fun _ h => h

theorem family_forkAt (hf : Family w) (hl : Locks w) {i : Nat} (hpc : w.pc p = .forkAlloc i)
    (hu : (w.procs q).state = .unused) (ok : Bool) : Family (forkAt w p q ok) := by
  have hrun := hl.running (p := p) (by simp [hpc, Pc.holdsOwn])
  cases ok with
  | true => exact ⟨parents_forkAt hf hl hrun hu, idents_forkAt hf⟩
  | false =>
    have hkin : Kin (w.procs q) (((w.procs q).claim w.nextpid).freeproc w.ticks) :=
      ⟨fun h => absurd hu h, by simp [hu], by simp [Proc.freeproc, hu],
        by simp [Proc.freeproc, hu], by simp [hu, alive]⟩
    exact hf.edit rfl rfl rfl hkin (hf.free q hu).symm hpc (.inl rfl) (.inl rfl) fun _ => rfl

theorem family_forkParent (hf : Family w) (hl : Locks w) (hpc : w.pc p = .forkParent q) :
    Family ((w.setProc q { w.procs q with parent := some p }).setPc p (.forkReady q)) := by
  have hrun := hl.running (p := p) (by simp [hpc, Pc.holdsOwn])
  have hused := hl.child p q (by simp [hpc, Pc.child])
  have hset := hf.setParent (by simp [hused]) (by simp [hrun, alive])
    (by simp [hpc, Pc.past]) (.inl (hf.pending p q (by simp [hpc, Pc.child])))
  exact hset.move rfl rfl rfl hpc (.inl rfl) (.inr rfl) fun _ => rfl

theorem Family.ne_init (hf : Family w) {s : Int} (h : (w.pc p).status = some s) :
    p ≠ initproc := by
  rintro rfl
  rw [hf.init.2.1] at h
  cases h

/-- init is never in the middle of an exit. -/
theorem Family.init_past (hf : Family w) (hl : Locks w) (i : ProcId) :
    (w.pc initproc).past i = false := by
  obtain ⟨ha, hs, -⟩ := hf.init
  have hst := hl.state initproc
  cases hpc : w.pc initproc with
  | wakeup ch j k =>
    cases k <;> simp_all [Pc.admits, Pc.afterWakeup, Pc.status]
  | _ => grind [Pc.past, Pc.status, Pc.admits, alive]

theorem family_reparent (hf : Family w) (hl : Locks w) {s : Int}
    (hpc : w.pc p = .exitReparent s q) (hq : (w.procs q).parent = some p) :
    Family ((w.setProc q { w.procs q with parent := some initproc }).setPc p
      (.wakeup (.proc initproc) 0 (.exitReparent s (q + 1)))) := by
  have hrun := hl.running (p := p) (by simp [hpc, Pc.holdsOwn])
  have hne := hf.ne_init (p := p) (s := s) (by simp [hpc, Pc.status])
  have hexit := hf.status p s (by simp [hrun]) (by simp [hpc, Pc.status])
  have hu : (w.procs q).state ≠ .unused := by
    intro hu
    rw [hf.free q hu] at hq
    cases hq
  have hc : (w.hist.exited (w.hist.creator (w.hist.ident q))).isSome = true := by
    rcases hf.creator q p hq with h | h
    · rw [h, hexit]
      rfl
    · exact h.2
  have hset := hf.setParent hu hf.init.1 (hf.init_past hl q) (.inr ⟨rfl, hc⟩)
  refine hset.setPc hpc
    (.inr rfl) (.inl rfl) fun i hi => ?_
  have hi : i.val < q.val + 1 := by simpa [Pc.past] using hi
  by_cases h : i = q
  · right
    grind
  · left
    have hne := Fin.val_ne_of_ne h
    simp only [Pc.past, decide_eq_true_eq]
    omega

theorem family_reparentNext (hf : Family w) {s : Int} (hpc : w.pc p = .exitReparent s q)
    (hq : (w.procs q).parent ≠ some p) : Family (w.setPc p (.exitReparent s (q + 1))) := by
  refine hf.setPc hpc (.inr rfl) (.inl rfl) fun i hi => ?_
  by_cases h : i = q
  · right
    rw [h]
    exact hq
  · left
    have hne := Fin.val_ne_of_ne h
    simp only [Pc.past, decide_eq_true_eq] at hi ⊢
    omega

theorem family_becomeZombie (hf : Family w) (hl : Locks w) {s : Int}
    (hpc : w.pc p = .exitZombie s) : Family (becomeZombie w c p s) := by
  have hrun := hl.running (p := p) (by simp [hpc, Pc.holdsOwn])
  have hexit := hf.status p s (by simp [hrun]) (by simp [hpc, Pc.status])
  have hpar : Parents (becomeZombie w c p s) :=
    { init := by
        have h := hf.init
        grind [Pc.status]
      free := fun i hi => by
        have h := hf.free i
        grind
      live := fun i r hr => by
        have h := hf.live i r
        grind [Pc.past]
      creator := fun i r hr => by
        have h := hf.creator i r
        grind
      pending := fun r np hr => by
        have h := hf.pending r np
        grind [Pc.child] }
  have hid : Idents (becomeZombie w c p s) :=
    { lt := hf.lt
      inj := fun i j h1 h2 => hf.inj i j (by grind) (by grind)
      pids := fun i h1 => by
        have h := hf.pids i
        grind
      status := fun i t h1 => by
        have h := hf.status i t
        grind [Pc.status]
      zombie := fun i h1 => by
        have h := hf.zombie i
        grind
      fresh := fun i h1 => hf.fresh i (by grind)
      old := hf.old
      once := hf.once
      right := hf.right }
  exact ⟨hpar, hid⟩

theorem parents_reapAt (hf : Family w) (hz : (w.procs q).state = .zombie) :
    Parents (reapAt w p q) where
  init := by
    have h := hf.init
    grind [Pc.status, alive]
  free i hi := by
    have h := hf.free i
    grind
  live i r hr := by
    have h := hf.live i r
    grind [Pc.past, alive]
  creator i r hr := by
    have h := hf.creator i r
    grind
  pending r np hr := by
    have h := hf.pending r np
    grind [Pc.child]

/-- What wait returns is right. -/
theorem right_reapAt (hf : Family w) (hq : (w.procs q).parent = some p)
    (hz : (w.procs q).state = .zombie) :
    Reap.Right w.hist ⟨w.hist.ident q, w.hist.ident p, (w.procs q).pid, (w.procs q).xstate⟩ where
  pid := (hf.pids q (by simp [hz])).symm
  status := hf.zombie q hz
  parent := by
    rcases hf.creator q p hq with h | ⟨rfl, h⟩
    · exact .inl h.symm
    · exact .inr ⟨hf.init.2.2, h⟩

theorem idents_reapAt (hf : Family w) (hq : (w.procs q).parent = some p)
    (hz : (w.procs q).state = .zombie) : Idents (reapAt w p q) where
  lt := hf.lt
  inj i j h1 h2 := hf.inj i j (by grind) (by grind)
  pids i h1 := by
    have h := hf.pids i
    grind
  status i s h1 h2 := by
    have h := hf.status i s
    grind [Pc.status]
  zombie i h1 := by
    have h := hf.zombie i
    grind
  fresh i h1 r hr := by
    have h := hf.fresh i
    have hinj := hf.inj i q
    grind
  old r hr := by
    have h := hf.old r
    have hlt := hf.lt q
    grind
  once := by
    have h := hf.fresh q (by simp [hz])
    rw [reapAt_reaped, List.map_append, List.nodup_append]
    refine ⟨hf.once, by simp, ?_⟩
    grind
  right r hr := by
    rw [reapAt_reaped, List.mem_append, List.mem_singleton] at hr
    rcases hr with hr | rfl
    · exact right_of_lt (hf.right r hr) rfl rfl rfl fun _ h => h
    · exact right_of_lt (right_reapAt hf hq hz) rfl rfl rfl fun _ h => h

theorem parents_exitAt (hf : Family w) (hi : p ≠ initproc) (s : Int) : Parents (exitAt w p s) where
  init := by
    have h := hf.init
    grind
  free i hi := by
    have h := hf.free i
    grind
  live i r hr := by
    have h := hf.live i r
    grind [Pc.past]
  creator i r hr := by
    have h := hf.creator i r
    grind
  pending r np hr := by
    have h := hf.pending r np
    grind [Pc.child]

theorem idents_exitAt (hf : Family w) (hr : (w.procs p).state = .running) (s : Int) :
    Idents (exitAt w p s) where
  lt := hf.lt
  inj i j h1 h2 := hf.inj i j (by grind) (by grind)
  pids i h1 := by
    have h := hf.pids i
    grind
  status i t h1 h2 := by
    have h := hf.status i t
    have hinj := hf.inj i p
    grind [Pc.status]
  zombie i h1 := by
    have h := hf.zombie i
    have hinj := hf.inj i p
    grind
  fresh i h1 := hf.fresh i (by grind)
  old := hf.old
  once := hf.once
  right r hr := by
    have hne := hf.fresh p (by simp [*]) r hr
    exact right_of_lt (hf.right r hr) rfl rfl (by grind) (by grind)

theorem family_swtch (hf : Family w) (ha : alive (w.procs p).state = true)
    (hx : alive x.state = true) (h1 : x.pid = (w.procs p).pid)
    (h2 : x.parent = (w.procs p).parent) (hs : k.status = none ∨ k.status = (w.pc p).status)
    (hk : k.child = none ∨ k.child = (w.pc p).child)
    (hp : ∀ i, k.past i = (w.pc p).past i) : Family (swtch w c p x k) := by
  have hkin : Kin (w.procs p) x :=
    { pid := fun _ => h1
      xstate := fun h => by simp [h, alive] at ha
      unused := by grind [alive]
      zombie := by grind [alive]
      alive := fun _ => hx }
  exact hf.edit rfl rfl rfl hkin h2 rfl hs hk hp

theorem kin_dispatch (h : x.state = .runnable) (ticks : Nat) : Kin x (x.dispatch ticks) :=
  ⟨fun _ => rfl, fun _ => rfl, by simp [Proc.dispatch, h], by simp [Proc.dispatch, h],
    fun _ => rfl⟩

theorem family_schedSection (hf : Family w) (hl : Locks w) (h : SchedSection w c w') :
    Family w' := by
  cases h with
  | first hc _ hr =>
    exact (hf.setProc (kin_dispatch hr w.ticks) rfl).congr rfl rfl rfl
  | last hc =>
    have hr := (hl.chosen _ _ _ _ hc).2
    exact (hf.setProc (kin_dispatch hr w.ticks) rfl).congr rfl rfl rfl
  | _ => exact hf.congr rfl rfl rfl

theorem yielded_past (h : k.preemptible = true) (i : ProcId) : k.past i = false := by
  cases k <;> simp_all [Pc.preemptible, Pc.past]

theorem family_wakeupEnd (hf : Family w) (hl : Locks w) {ch : Chan} {i : Nat}
    (hpc : w.pc p = .wakeup ch i k) : Family (w.setPc p k) := by
  have hk := hl.afterWakeup hpc
  refine hf.move rfl rfl rfl hpc (.inr rfl) ?_ fun _ => rfl
  cases k <;> simp_all [Pc.afterWakeup, Pc.child]

theorem family_section (hf : Family w) (hl : Locks w) (hc : w.cpu c = .run p)
    (h : Section w c p w') : Family w' := by
  have hrun {k : Pc} (hpc : w.pc p = k) (hk : k.admits .zombie = false) :=
    hl.running_of_cpu hc hpc hk
  cases h with
  | forkAlloc hpc _ hu ok => exact family_forkAt hf hl hpc hu ok
  | forkParent hpc => exact family_forkParent hf hl hpc
  | @forkReady np hpc hf' =>
    have hused := hl.child p np (by rw [hpc]; rfl)
    have hkin : Kin (w.procs np) { w.procs np with state := .runnable } :=
      ⟨fun _ => rfl, fun _ => rfl, by simp [hused], by simp [hused], fun _ => rfl⟩
    exact hf.edit rfl rfl rfl hkin rfl hpc (.inl rfl) (.inl rfl) fun _ => rfl
  | yielded hpc =>
    exact hf.move rfl rfl rfl hpc (.inr rfl) (.inr rfl) (yielded_past (hl.preemptible hpc))
  | yield hpc =>
    have hr : (w.procs p).state = .running := by
      cases hk : w.pc p <;> simp_all [Pc.preemptible, Pc.admits]
    exact family_swtch hf (by simp [hr, alive]) rfl rfl rfl (.inr rfl) (.inr rfl) fun i =>
      (yielded_past hpc i).symm
  | waitSleepSched hpc | sleep hpc =>
    exact family_swtch hf (by simp [hrun hpc rfl, alive]) rfl rfl rfl (.inl rfl) (.inl rfl)
      (by simp [hpc, Pc.past])
  | waitWake hpc | sleepWake hpc =>
    exact hf.edit rfl rfl rfl (.of_state rfl rfl rfl) rfl hpc (.inl rfl) (.inl rfl) fun _ => rfl
  | reap hpc _ hq hz => exact ⟨parents_reapAt hf hz, idents_reapAt hf hq hz⟩
  | exit hpc hi s => exact ⟨parents_exitAt hf hi s, idents_exitAt hf (hrun hpc rfl) s⟩
  | exitTime hpc =>
    exact hf.edit rfl rfl rfl (.of_state rfl rfl rfl) rfl hpc (.inr rfl) (.inl rfl) fun _ => rfl
  | exitWaiting hpc =>
    exact hf.edit rfl rfl rfl (.of_state rfl rfl rfl) rfl hpc (.inr rfl) (.inl rfl) fun _ => by
      simp [Pc.past]
  | reparent hpc hq => exact family_reparent hf hl hpc hq
  | reparentNext hpc hq => exact family_reparentNext hf hpc hq
  | reparentEnd hpc hi => 
    exact hf.move rfl rfl rfl hpc (.inr rfl) (.inl rfl) fun i => by
      simp only [Pc.past, true_eq_decide_iff]
      omega
  | exitZombie hpc => exact family_becomeZombie hf hl hpc
  | exitSched hpc =>
    exact hf.edit rfl rfl rfl (.of_state rfl rfl rfl) rfl hpc (.inl rfl) (.inl rfl) fun _ => rfl
  | wakeup hpc =>
    exact hf.edit rfl rfl rfl (kin_wakeup _ _) (Proc.wakeup_parent _ _) hpc (.inr rfl) (.inl rfl)
      fun _ => rfl
  | wakeupEnd hpc => exact family_wakeupEnd hf hl hpc
  | kill hpc => exact hf.edit rfl rfl rfl (kin_kill _) rfl hpc (.inl rfl) (.inl rfl) fun _ => rfl
  | exitLock hpc | exitParent hpc | exitOrphan hpc | wakeupSelf hpc =>
    exact hf.move rfl rfl rfl hpc (.inr rfl) (.inl rfl) fun _ => rfl
  | fork hpc | forkret hpc | forkNext hpc | forkFull hpc | wait hpc | waitLock hpc | waitOther hpc
  | waitAlive hpc | waitCopyout hpc | waitEnd hpc | waitGiveUp hpc | waitStay hpc | waitUnlock hpc
  | waitSleepLock hpc | waitSleepUnlock hpc | exitUnlock hpc | callKill hpc | killNext hpc
  | killEnd hpc =>
    exact hf.move rfl rfl rfl hpc (.inl rfl) (.inl rfl) fun _ => rfl

theorem family_step {l : Label} (hf : Family w) (hl : Locks w) (h : Step w l w') :
    Family w' := by
  cases h with
  | sched h => exact family_schedSection hf hl h
  | proc hc h => exact family_section hf hl hc h
  | tick | updateEnd | setMode => exact hf.congr rfl rfl rfl
  | update hc =>
    exact (hf.setProc (kin_updateTime _) (Proc.updateTime_parent _)).congr rfl rfl rfl
  | wakeup => exact hf.setProc (kin_wakeup _ _) (Proc.wakeup_parent _ _)
  | setPriority => exact hf.setProc (.of_state rfl rfl rfl) rfl

theorem boot_procs (i : ProcId) :
    boot.procs i = if i = initproc then Proc.userinit else Proc.zero := by
  simp [boot, Function.update_apply]

theorem boot_parent (i : ProcId) : (boot.procs i).parent = none := by
  rw [boot_procs]
  split <;> rfl

theorem boot_unused {i : ProcId} (h : (boot.procs i).state ≠ .unused) : i = initproc := by
  by_contra hi
  simp [boot_procs, hi, Proc.zero] at h

theorem family_boot : Family boot where
  init := ⟨rfl, rfl, rfl⟩
  free i _ := boot_parent i
  live i q hq := by simp [boot_parent] at hq
  creator i q hq := by simp [boot_parent] at hq
  pending p np hp := by simp [boot, Pc.child] at hp
  lt i := by simp [boot]
  inj i j hi hj _ := (boot_unused hi).trans (boot_unused hj).symm
  pids i hi := by
    obtain rfl := boot_unused hi
    rfl
  status i s _ hs := by simp [boot, Pc.status] at hs
  zombie i hi := by
    obtain rfl := boot_unused (i := i) (by simp [hi])
    cases hi
  fresh i _ r hr := by simp [boot] at hr
  old r hr := by simp [boot] at hr
  once := by simp [boot]
  right r hr := by simp [boot] at hr

end Xv6.Sections
