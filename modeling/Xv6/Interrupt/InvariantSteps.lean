import Xv6.Interrupt.Preserve

namespace Xv6.Interrupt

open Xv6.Framework Xv6.Process

variable {w w' : World} {H : Nat → Finset Lock} {c d : Nat} {x : Proc} {p q : ProcId} {l : Lock}
  {t : Thread} {op : Op} {k ops : List Op} {v : Sweep}

theorem setProc_state_of_eq (h : x.state = w.state p) : (w.setProc p x).state = w.state := by
  funext q
  by_cases hq : q = p
  · subst hq
    simp [World.state, h]
  · simp [World.state, hq]

theorem setProc_state_of_ne (h : q ≠ p) : (w.setProc p x).state q = w.state q := by
  simp [World.state, h]

theorem setProc_state_self : (w.setProc p x).state p = x.state := by
  simp [World.state]

theorem Sweep.apply_state (v : Sweep) (x : Proc) :
    (v.apply x).state = x.state ∨ x.state = .sleeping ∧ (v.apply x).state = .runnable := by
  cases v with
  | wakeup ch => grind [Sweep.apply, Proc.wakeup]
  | updateTime => grind [Sweep.apply, Proc.updateTime]
  | kill pid => grind [Sweep.apply, Proc.kill]

/-- A step that gives the process p, whose lock is held, another state. -/
theorem Inv.setState (h : Inv w H) (hr : (w.cpu c).run = ⟨t, op :: k⟩) (hp : .proc p ∈ H c)
    (hold : w.state p ≠ .unused ∨ x.state = .unused) (hrun : w.state p ≠ .running ∨ t = .proc p)
    (ht : Typed t (own (w.setProc p x).state t) ops (H c)) :
    ∃ H', Inv ((w.setProc p x).goto c ops) H' := by
  refine h.write hr rfl rfl hp hrun (fun q hq => setProc_state_of_ne hq) (fun q hq => ?_) ht
  by_cases hqp : q = p
  · subst hqp
    rw [setProc_state_self] at hq
    exact .inl ⟨hold.resolve_right hq, rfl⟩
  · rw [setProc_state_of_ne hqp] at hq
    exact .inl ⟨hq, rfl⟩

/-- The process on the stack stays RUNNING when another one changes its state. -/
theorem own_setProc (h : own w.state t = .running) (hp : w.state p ≠ .running) :
    own (w.setProc p x).state t = .running := by
  cases t with
  | sched pc => rfl
  | proc q =>
    have hq : q ≠ p := by
      rintro rfl
      exact hp h
    exact (setProc_state_of_ne hq).trans h

theorem inv_touch {n : Nat} (h : Inv w H) (hr : (w.cpu c).run = ⟨t, .touch n v p :: k⟩) :
    ∃ H', Inv ((w.setProc p (v.apply (w.procs p))).goto c
      (.release (.proc p) :: if v.found (w.procs p) then k else .sweep n v (p + 1) :: k)) H' := by
  obtain ⟨hs, hp, hno, hk⟩ := h.typed hr
  have hcont : Typed t .running (.release (.proc p) ::
      if v.found (w.procs p) then k else .sweep n v (p + 1) :: k) (H c) := by
    rw [hs] at hk
    refine ⟨.inl rfl, hp, ?_⟩
    split
    · exact hk
    · exact ⟨rfl, hno, hk⟩
  rcases v.apply_state (w.procs p) with hsame | ⟨hsleep, -⟩
  · exact h.goto hr (setProc_state_of_eq hsame) rfl rfl rfl (hs ▸ hcont)
  · have hsleep : w.state p = .sleeping := hsleep
    refine h.setState hr hp (.inl (by simp [hsleep])) (.inl (by simp [hsleep])) ?_
    rw [own_setProc hs (by simp [hsleep])]
    exact hcont

theorem inv_sweep {n i : Nat} (h : Inv w H) (hr : (w.cpu c).run = ⟨t, .sweep n v i :: k⟩)
    (me : Option ProcId) : ∃ H', Inv (w.goto c (sweepNext me n v i k)) H' := by
  obtain ⟨hs, hno, hk⟩ := h.typed hr
  refine h.goto hr rfl rfl rfl rfl ?_
  unfold sweepNext
  split
  · split
    · exact ⟨hs, hno, hk⟩
    · refine ⟨hs, hs, Finset.mem_insert_self _ _, ?_⟩
      rw [Finset.erase_insert (hno _)]
      exact ⟨hno, hk⟩
  · exact hk

theorem inv_reparentAt {i : Nat} (h : Inv w H) (hr : (w.cpu c).run = ⟨t, .reparent p i :: k⟩) :
    ∃ H', Inv (reparentAt w c p i k) H' := by
  obtain ⟨hs, hno, hk⟩ := h.typed hr
  unfold reparentAt
  split
  · split
    · refine h.goto hr (setProc_state_of_eq rfl) rfl rfl rfl ⟨hs, hno, hs, hno, hk⟩
    · exact h.goto hr rfl rfl rfl rfl ⟨hs, hno, hk⟩
  · exact h.goto hr rfl rfl rfl rfl hk

theorem inv_spawnAt (h : Inv w H) (hr : (w.cpu c).run = ⟨t, .spawn p :: k⟩) :
    ∃ H', Inv ((spawnAt w c p).goto c k) H' := by
  obtain ⟨hs, hp, hk⟩ := h.typed hr
  unfold spawnAt
  split
  case isTrue hst =>
    have hst : w.state p = .unused := hst
    have hne : w.state p ≠ .running := by simp [hst]
    refine h.write hr rfl rfl hp (.inl hne) (fun q hq => setProc_state_of_ne hq) (fun q hq => ?_) ?_
    · by_cases hqp : q = p
      · subst hqp
        exact .inr (by simp [Saved, forkret, Typed])
      · exact .inl ⟨(setProc_state_of_ne hqp) ▸ hq, by simp [hqp]⟩
    · exact (own_setProc hs hne).symm ▸ hs ▸ hk
  case isFalse => exact h.goto hr rfl rfl rfl rfl hk

theorem inv_freeAt (h : Inv w H) (hr : (w.cpu c).run = ⟨t, .freeproc p :: k⟩) :
    ∃ H', Inv ((freeAt w c p).goto c k) H' := by
  obtain ⟨hs, hp, hk⟩ := h.typed hr
  unfold freeAt
  split
  case isTrue hst =>
    have hst : w.state p = .zombie := hst.2
    refine h.setState hr hp (.inr rfl) (.inl (by simp [hst])) ?_
    rw [own_setProc hs (by simp [hst])]
    exact hs ▸ hk
  case isFalse => exact h.goto hr rfl rfl rfl rfl hk

theorem inv_execOp (h : Inv w H) (hr : (w.cpu c).run = ⟨t, op :: k⟩)
    (he : execOp w c op k = some w') : ∃ H', Inv w' H' := by
  have hty := h.typed hr
  have hgood := h.good c
  rw [hr] at hgood
  have hthread : (w.cpu c).run.thread = t := by rw [hr]
  unfold execOp at he
  cases op with
  | acquire l =>
    refine h.acquire he (fun _ => ?_) rfl fun q hq => hq
    rw [hthread]
    exact hgood.statement hty.2
  | release l =>
    refine h.release he ?_ rfl fun q hq => hq
    rw [hthread]
    exact hgood.statement hty.2.2
  | sched => exact h.sched hr he
  | restore intena =>
    cases he
    exact h.inPlace hr rfl rfl rfl rfl ⟨(h.held c).noff, (h.held c).intr⟩ rfl rfl rfl hty.2
  | setState p s =>
    cases he
    obtain ⟨hs, rfl, hp, hs', hk⟩ := hty
    refine h.setState hr hp (.inl ?_) (.inr rfl) ?_
    · rw [show w.state p = .running from hs]
      simp
    · rw [own, setProc_state_self]
      exact hk
  | setChan p ch =>
    cases he
    exact h.goto hr (setProc_state_of_eq rfl) rfl rfl rfl hty.2.2.2
  | start v =>
    cases he
    exact h.inPlace hr rfl rfl rfl rfl (h.held c).goto rfl rfl rfl ⟨hty.1, hty.2.1, hty.2.2⟩
  | sweep n v i =>
    cases he
    exact inv_sweep h hr _
  | touch n v p =>
    cases he
    exact inv_touch h hr
  | reparent p i =>
    cases he
    exact inv_reparentAt h hr
  | wakeupParent p =>
    simp only at he
    split at he
    · cases he
      exact h.goto hr rfl rfl rfl rfl hty
    · cases he
      exact h.goto hr rfl rfl rfl rfl hty.2.2
  | spawn p =>
    cases he
    exact inv_spawnAt h hr
  | freeproc p =>
    cases he
    exact inv_freeAt h hr
  | tick =>
    cases he
    exact h.inPlace hr rfl rfl rfl rfl (h.held c).goto rfl rfl rfl hty.2
  | yieldIf =>
    obtain ⟨hs, hls, hk⟩ := hty
    simp only at he
    split at he
    case h_1 p hp =>
      cases he
      refine h.goto hr rfl rfl rfl rfl ?_
      cases t with
      | sched pc => simp [hgood.idle rfl] at hp
      | proc q =>
        obtain rfl : q = p := Option.some_inj.mp ((hgood.busy q rfl).1.symm.trans hp)
        rw [hs, hls] at hk ⊢
        exact hk.yield
    case h_2 =>
      cases he
      exact h.goto hr rfl rfl rfl rfl hk
  | iret =>
    cases he
    exact h.inPlace hr rfl rfl rfl rfl ⟨(h.held c).noff, fun _ => hty.2.1⟩ rfl rfl rfl hty.2.2
  | panic => cases he

section Scheduler

variable {pc pc' : SchedPc} {z : Cpu} {m : SchedMode} {chosen : Option ProcId}

/-- A step of scheduler() that leaves the locks and the processes alone. -/
theorem Inv.point (h : Inv w H) (hr : (w.cpu c).run = ⟨.sched pc, []⟩)
    (hcpu : w'.cpu = Function.update w.cpu c z) (hlock : w'.lock = w.lock)
    (hst : w'.state = w.state) (hctx : w'.context = w.context) (hheld : Held z (H c))
    (hrun : z.run = ⟨.sched pc', []⟩) (hls : H c = pc'.locks) (hproc : z.proc = pc'.proc)
    (hfits : pc'.Fits w.state)
    (hstart : ∀ q, Thread.starting (.sched pc') = some q → Thread.starting (.sched pc) = some q) :
    ∃ H', Inv w' H' := by
  refine ⟨_, h.quiet hcpu hst hctx hheld ?_ (h.lock_same hlock) ?_ ?_⟩
  · rw [hrun]
    exact Good.scheduler hls (.inr hproc) hfits
  · rw [hrun, hr]
    rfl
  · rw [hrun, hr]
    exact hstart

theorem chooseNext_spec (hf : SchedPc.Fits w.state (.choose m p chosen)) :
    (chooseNext w m p chosen).locks = insert (.proc p) (chosenLocks chosen) ∧
      (chooseNext w m p chosen).proc = none ∧ (chooseNext w m p chosen).Fits w.state ∧
      Thread.starting (.sched (chooseNext w m p chosen)) = none := by
  unfold chooseNext
  split
  case isTrue hp =>
    obtain ⟨hrunnable, hprefers⟩ := hp
    cases chosen with
    | none =>
      split
      · exact ⟨rfl, rfl, hrunnable, rfl⟩
      · exact ⟨rfl, rfl, hrunnable, rfl⟩
    | some q =>
      rw [if_neg fun hm => by simp [hm, prefers] at hprefers]
      exact ⟨Finset.pair_comm _ _, rfl, ⟨hf.1.symm, hrunnable⟩, rfl⟩
  case isFalse =>
    cases chosen with
    | none => exact ⟨rfl, rfl, trivial, rfl⟩
    | some q => exact ⟨rfl, rfl, hf, rfl⟩

theorem inv_setRunning (h : Inv w H) (hr : (w.cpu c).run = ⟨.sched (.setRunning p), []⟩) :
    ∃ H', Inv ((w.setProc p ((w.procs p).dispatch w.ticks)).resume c (.setProc p)) H' := by
  have hgood := h.good c
  rw [hr] at hgood
  have hls : H c = {.proc p} := hgood.typed
  have hst : w.state p = .runnable := hgood.fits _ rfl
  have hproc : (w.cpu c).proc = none := (hgood.field _ rfl).resolve_left nofun
  have hp : .proc p ∈ H c ∧ w.state p ≠ .running := by simp [hls, hst]
  refine ⟨_, h.step rfl (h.held c).goto ?_ (h.lock_same rfl) ?_ ?_ ?_ ?_⟩
  · exact Good.scheduler hls (.inr hproc) setProc_state_self
  · rw [hr]
    rfl
  · intro q
    by_cases hq : q = p
    · subst hq
      exact .inr ⟨hp.1, .inl hp.2⟩
    · exact .inl (setProc_state_of_ne hq)
  · intro q hq
    obtain rfl : p = q := Option.some_inj.mp hq
    exact .inr hp
  · intro q hq
    by_cases hqp : q = p
    · subst hqp
      exact .inl ⟨by simp [hst], rfl⟩
    · exact .inl ⟨setProc_state_of_ne hqp ▸ hq, rfl⟩

theorem inv_schedule (h : Inv w H) (hr : (w.cpu c).run = ⟨.sched pc, []⟩)
    (he : schedule w c pc = some w') : ∃ H', Inv w' H' := by
  have hgood := h.good c
  rw [hr] at hgood
  have hls : H c = pc.locks := hgood.typed
  have hfits := hgood.fits pc rfl
  have hproc : pc ≠ .clearProc → (w.cpu c).proc = pc.proc := (hgood.field pc rfl).resolve_left
  cases pc with
  | loop =>
    cases he
    exact h.point hr rfl rfl rfl rfl ⟨(h.held c).noff, fun _ => hls⟩ rfl hls
      (hproc (by simp)) trivial (by simp [Thread.starting])
  | scan m i chosen =>
    simp only [schedule] at he
    split at he
    case isTrue hi =>
      refine h.acquire he (fun hnot => ?_) (by rw [hr]; rfl) (by simp [Thread.starting])
      refine Good.scheduler (by rw [hls]; rfl) (.inr (hproc (by simp))) ?_
      cases chosen with
      | none => trivial
      | some q => exact ⟨by simpa [hls, SchedPc.locks, chosenLocks] using hnot, hfits⟩
    case isFalse =>
      cases chosen with
      | none =>
        cases he
        exact h.point hr rfl rfl rfl rfl (h.held c).goto rfl hls (hproc (by simp)) trivial
          (by simp [Thread.starting])
      | some p =>
        cases he
        exact h.point hr rfl rfl rfl rfl (h.held c).goto rfl hls (hproc (by simp)) hfits
          (by simp [Thread.starting])
  | choose m p chosen =>
    cases he
    obtain ⟨h1, h2, h3, h4⟩ := chooseNext_spec hfits
    exact h.point hr rfl rfl rfl rfl (h.held c).goto rfl (hls.trans h1.symm)
      ((hproc (by simp)).trans h2.symm) h3 (by simp [h4])
  | unlock q m i chosen =>
    refine h.release he ?_ (by rw [hr]; rfl) (by simp [Thread.starting])
    cases chosen with
    | none =>
      exact Good.scheduler (by simp [hls, SchedPc.locks, chosenLocks])
        (.inr (hproc (by simp))) trivial
    | some p =>
      exact Good.scheduler (by simp [hls, SchedPc.locks, chosenLocks, hfits.1])
        (.inr (hproc (by simp))) hfits.2
  | setRunning p =>
    cases he
    exact inv_setRunning h hr
  | setProc p =>
    cases he
    exact h.point hr rfl rfl rfl rfl ⟨(h.held c).noff, (h.held c).intr⟩ rfl hls rfl hfits
      fun q hq => hq
  | swtch p =>
    cases he
    exact h.swtch hr rfl
  | back p =>
    refine h.release he ?_ (by rw [hr]; rfl) (by simp [Thread.starting])
    exact Good.scheduler (by simp [hls, SchedPc.locks]) (.inl rfl) trivial
  | clearProc =>
    cases he
    exact h.point hr rfl rfl rfl rfl ⟨(h.held c).noff, (h.held c).intr⟩ rfl hls rfl trivial
      (by simp [Thread.starting])

end Scheduler

/-- No interrupt is taken by scheduler() between the release of the process it comes back from and
the assignment that clears c->proc. -/
def Uninterrupted (w : World) : Label → Bool
  | .interrupt c _ => decide ((w.cpu c).run.thread ≠ .sched .clearProc)
  | _ => true

theorem inv_interrupt {irq : Irq} (h : Inv w H) (hi : (w.cpu c).intr = true)
    (hq : (w.cpu c).run.thread ≠ .sched .clearProc) :
    ∃ H', Inv (w.setCpu c
      { (w.cpu c).goto (kerneltrap c irq ++ (w.cpu c).run.ops) with intr := false }) H' := by
  have hls : H c = ∅ := (h.held c).intr hi
  have hgood := h.good c
  have hown : own w.state (w.cpu c).run.thread = .running := by
    cases ht : (w.cpu c).run.thread with
    | sched pc => rfl
    | proc p => exact hgood.running ht (by simp [hls])
  have hty := hgood.typed
  rw [hown, hls] at hty
  refine ⟨_, h.quiet rfl rfl rfl ⟨(h.held c).noff, nofun⟩ ?_ (h.lock_same rfl) rfl fun q hq => hq⟩
  refine ⟨?_, hgood.field, ?_, hgood.fits, hgood.busy⟩
  · exact hown.symm ▸ hls.symm ▸ hty.kerneltrap c irq
  · intro pc hpc _
    rw [hls] at hgood
    refine hgood.calm_of_free hpc ?_
    rintro rfl
    exact hq hpc

/-- A process outside the functions above is RUNNING and holds no lock. -/
theorem Inv.outside (h : Inv w H) (hr : (w.cpu c).run = ⟨.proc p, []⟩) :
    H c = ∅ ∧ w.state p = .running ∧ (w.cpu c).proc = some p ∧
      (w.cpu c).context = ⟨.sched (.back p), []⟩ := by
  have hgood := h.good c
  rw [hr] at hgood
  exact ⟨hgood.typed.1, hgood.typed.2, hgood.busy p rfl⟩

theorem inv_call {a : Call} (h : Inv w H) (hr : (w.cpu c).run = ⟨.proc p, []⟩)
    (ha : a.allowed p (w.cpu c).intr = true) : ∃ H', Inv (w.goto c (a.body p)) H' := by
  obtain ⟨hls, hst, hproc, hcontext⟩ := h.outside hr
  refine ⟨_, h.quiet rfl rfl rfl (h.held c).goto ?_ (h.lock_same rfl) rfl fun q hq => hq⟩
  refine Good.process (by rw [Cpu.goto, hr]) ?_ hproc hcontext
  rw [hst, hls]
  exact Typed.body ha

theorem inv_setIntr {b : Bool} (h : Inv w H) (hr : (w.cpu c).run = ⟨.proc p, []⟩) :
    ∃ H', Inv (w.setCpu c { w.cpu c with intr := b }) H' := by
  refine ⟨_, h.quiet rfl rfl rfl ⟨(h.held c).noff, fun _ => (h.outside hr).1⟩ (h.good c)
    (h.lock_same rfl) rfl fun q hq => hq⟩

theorem inv_setPriority {priority : Int} (h : Inv w H) :
    Inv (w.setProc p { w.procs p with priority := priority }) H := by
  have hst : (w.setProc p { w.procs p with priority := priority }).state = w.state :=
    setProc_state_of_eq rfl
  exact ⟨h.held, hst ▸ h.good, h.lock, h.uniq, h.off, hst ▸ h.saved⟩

theorem inv_next {a : Label} (h : Inv w H) (hn : next w a = some w')
    (hq : Uninterrupted w a = true) : ∃ H', Inv w' H' := by
  cases a with
  | exec c =>
    unfold next exec at hn
    simp only at hn
    split at hn
    case h_1 t op k hr => exact inv_execOp h hr hn
    case h_2 pc hr => exact inv_schedule h hr hn
    case h_3 => cases hn
  | interrupt c irq =>
    simp only [next] at hn
    split at hn
    case isTrue hi =>
      cases hn
      exact inv_interrupt h hi (of_decide_eq_true hq)
    case isFalse => cases hn
  | call c a =>
    simp only [next] at hn
    split at hn
    case h_1 q p hr hp =>
      obtain rfl : q = p := Option.some_inj.mp ((h.outside hr).2.2.1.symm.trans hp)
      split at hn
      case isTrue ha =>
        cases hn
        exact inv_call h hr ha
      case isFalse => cases hn
    case h_2 => cases hn
  | setIntr c b =>
    simp only [next] at hn
    split at hn
    case h_1 p hr =>
      cases hn
      exact inv_setIntr h hr
    case h_2 => cases hn
  | setMode m =>
    cases hn
    exact ⟨H, h.held, h.good, h.lock, h.uniq, h.off, h.saved⟩
  | setPriority p priority =>
    simp only [next] at hn
    split at hn
    · cases hn
      exact ⟨H, inv_setPriority h⟩
    · cases hn

theorem inv_boot : Inv boot fun _ => ∅ where
  held _ := ⟨rfl, fun _ => rfl⟩
  good _ := Good.scheduler rfl (.inr rfl) trivial
  lock l c := by simp [boot]
  uniq c d p h := by simp [boot] at h
  off c d p h := by simp [boot, Thread.starting] at h
  saved p _ _ := by simp [Saved, boot, forkret, Typed]

end Xv6.Interrupt
