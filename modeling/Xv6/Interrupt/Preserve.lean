import Xv6.Interrupt.Invariant

namespace Xv6.Interrupt

open Xv6.Framework Xv6.Process

variable {w w' : World} {H : Nat → Finset Lock} {c d : Nat} {x : Cpu} {ls : Finset Lock}
  {p q : ProcId} {l : Lock} {t : Thread} {op : Op} {k ops : List Op} {r : Context} {pc pc' : SchedPc}

@[simp] theorem goto_cpu (w : World) (c : Nat) (ops : List Op) :
    (w.goto c ops).cpu = update w.cpu c ((w.cpu c).goto ops) := rfl

theorem acquireAt_eq_some (h : acquireAt w c l r = some w') :
    w.lock l = none ∧
      w' = (w.setLock l (some c)).setCpu c { (w.cpu c).pushOff with run := r } := by
  unfold acquireAt at h
  split at h
  case isTrue hl => exact ⟨hl, (Option.some_inj.mp h).symm⟩
  case isFalse => cases h

theorem releaseAt_eq_some (h : releaseAt w c l r = some w') :
    w.lock l = some c ∧ w' = (w.setLock l none).setCpu c { (w.cpu c).popOff with run := r } := by
  unfold releaseAt at h
  split at h
  case isTrue hl => exact ⟨hl.1, (Option.some_inj.mp h).symm⟩
  case isFalse => cases h

theorem Inv.lock_same (h : Inv w H) (hl : w'.lock = w.lock) (l : Lock) (d : Nat) :
    w'.lock l = some d ↔ l ∈ update H c (H c) d := by
  rw [hl, update_eq_self, h.lock]

theorem Inv.lock_insert (h : Inv w H) (hl : w.lock l = none)
    (hw : ∀ m, w'.lock m = if m = l then some c else w.lock m) (m : Lock) (d : Nat) :
    w'.lock m = some d ↔ m ∈ update H c (insert l (H c)) d := by
  rw [hw, update_apply]
  split <;> split <;> grind [h.lock m d]

theorem Inv.lock_erase (h : Inv w H) (hl : w.lock l = some c)
    (hw : ∀ m, w'.lock m = if m = l then none else w.lock m) (m : Lock) (d : Nat) :
    w'.lock m = some d ↔ m ∈ update H c ((H c).erase l) d := by
  rw [hw, update_apply]
  split <;> split <;> grind [h.lock m d]

theorem Inv.quiet (h : Inv w H) (hcpu : w'.cpu = update w.cpu c x)
    (hst : w'.state = w.state) (hctx : w'.context = w.context)
    (hheld : Held x ls) (hgood : Good w.state x.proc x.context x.run ls)
    (hlock : ∀ l d, w'.lock l = some d ↔ l ∈ update H c ls d)
    (hon : x.run.thread.on = (w.cpu c).run.thread.on)
    (hstart : ∀ q, x.run.thread.starting = some q → (w.cpu c).run.thread.starting = some q) :
    Inv w' (update H c ls) :=
  h.step hcpu hheld (hst ▸ hgood) hlock hon (fun q => .inl (congrFun hst q))
    (fun q hq => .inl (hstart q hq)) fun q hq => .inl ⟨hst ▸ hq, congrFun hctx q⟩

theorem Inv.acquire (h : Inv w H) (ha : acquireAt w c l r = some w')
    (hgood : l ∉ H c → Good w.state (w.cpu c).proc (w.cpu c).context r (insert l (H c)))
    (hon : r.thread.on = (w.cpu c).run.thread.on)
    (hstart : ∀ q, r.thread.starting = some q → (w.cpu c).run.thread.starting = some q) :
    ∃ H', Inv w' H' := by
  obtain ⟨hl, rfl⟩ := acquireAt_eq_some ha
  have hnot : l ∉ H c := fun hc => by simp [(h.lock l c).mpr hc] at hl
  exact ⟨_, h.quiet rfl rfl rfl ((h.held c).pushOff hnot).goto (hgood hnot)
    (h.lock_insert hl (by simp)) hon hstart⟩

theorem Inv.release (h : Inv w H) (ha : releaseAt w c l r = some w')
    (hgood : Good w.state (w.cpu c).proc (w.cpu c).context r ((H c).erase l))
    (hon : r.thread.on = (w.cpu c).run.thread.on)
    (hstart : ∀ q, r.thread.starting = some q → (w.cpu c).run.thread.starting = some q) :
    ∃ H', Inv w' H' := by
  obtain ⟨hl, rfl⟩ := releaseAt_eq_some ha
  exact ⟨_, h.quiet rfl rfl rfl ((h.held c).popOff ((h.lock l c).mp hl)).goto hgood
    (h.lock_erase hl (by simp)) hon hstart⟩

section Statement

variable (h : Inv w H) (hr : (w.cpu c).run = ⟨t, op :: k⟩)

include h hr

theorem Inv.typed : Typed t (own w.state t) (op :: k) (H c) := by
  have := (h.good c).typed
  rwa [hr] at this

/-- A statement that leaves the locks and the states of the processes alone. -/
theorem Inv.inPlace (hcpu : w'.cpu = update w.cpu c x) (hlock : w'.lock = w.lock)
    (hst : w'.state = w.state) (hctx : w'.context = w.context) (hheld : Held x (H c))
    (hproc : x.proc = (w.cpu c).proc) (hcontext : x.context = (w.cpu c).context)
    (hrun : x.run = ⟨(w.cpu c).run.thread, ops⟩) (ht : Typed t (own w.state t) ops (H c)) :
    ∃ H', Inv w' H' := by
  have hgood := h.good c
  rw [hr] at hgood
  refine ⟨_, h.quiet hcpu hst hctx hheld ?_ (h.lock_same hlock) ?_ ?_⟩
  · rw [hproc, hcontext, hrun, hr]
    exact hgood.statement ht
  · rw [hrun]
  · rw [hrun]
    exact fun q hq => hq

theorem Inv.goto (hst : w'.state = w.state) (hcpu : w'.cpu = w.cpu) (hlock : w'.lock = w.lock)
    (hctx : w'.context = w.context) (ht : Typed t (own w.state t) ops (H c)) :
    ∃ H', Inv (w'.goto c ops) H' := by
  have hgoto : (w'.goto c ops).cpu = update w.cpu c ((w.cpu c).goto ops) := by
    rw [goto_cpu, hcpu]
  exact h.inPlace hr hgoto hlock hst hctx (h.held c).goto rfl rfl rfl ht

/-- A statement that changes the state of a process whose lock is held. -/
theorem Inv.write (hcpu : w'.cpu = w.cpu) (hlock : w'.lock = w.lock)
    (hq : .proc q ∈ H c) (hold : w.state q ≠ .running ∨ t = .proc q)
    (hst : ∀ p, p ≠ q → w'.state p = w.state p)
    (hctx : ∀ p, w'.state p ≠ .unused →
      w.state p ≠ .unused ∧ w'.context p = w.context p ∨ Saved w' p)
    (ht : Typed t (own w'.state t) ops (H c)) : ∃ H', Inv (w'.goto c ops) H' := by
  have hgood := h.good c
  rw [hr] at hgood
  have hgoto : (w'.goto c ops).cpu = update w.cpu c ((w.cpu c).goto ops) := by
    rw [goto_cpu, hcpu]
  refine ⟨_, h.step hgoto (h.held c).goto ?_ (h.lock_same hlock) rfl ?_ (fun q hq => .inl hq) hctx⟩
  · rw [Cpu.goto, hr]
    exact hgood.statement ht
  · intro p
    by_cases hp : p = q
    · subst hp
      rw [hr]
      exact .inr ⟨hq, hold⟩
    · exact .inl (hst p hp)

end Statement

theorem schedAt_eq_some (h : schedAt w c k = some w') :
    ∃ p, (w.cpu c).proc = some p ∧ w' = (w.setContext p
      ⟨(w.cpu c).run.thread, .restore (w.cpu c).intena :: k⟩).setCpu c
        { w.cpu c with run := (w.cpu c).context } := by
  unfold schedAt at h
  simp only at h
  split at h
  · cases h
  case h_2 p hp =>
    split at h
    · exact ⟨p, hp, (Option.some_inj.mp h).symm⟩
    · cases h

theorem Inv.sched (h : Inv w H) (hr : (w.cpu c).run = ⟨t, .sched :: k⟩)
    (hs : schedAt w c k = some w') : ∃ H', Inv w' H' := by
  obtain ⟨-, p, rfl, hls, -, hk⟩ := h.typed hr
  have ht : (w.cpu c).run.thread = .proc p := by rw [hr]
  obtain ⟨hproc, hcontext⟩ := (h.good c).busy p ht
  obtain ⟨p', hp', rfl⟩ := schedAt_eq_some hs
  obtain rfl : p = p' := Option.some_inj.mp (hproc.symm.trans hp')
  refine ⟨H, fun d => ?_, fun d => ?_, h.lock, ?_, ?_, ?_⟩
  · rw [setCpu_cpu]
    split
    · subst d
      exact (h.held c).goto
    · exact h.held d
  · rw [setCpu_cpu]
    split
    · subst d
      rw [hcontext]
      exact Good.scheduler hls (.inr hproc) trivial
    · exact h.good d
  · intro d e q hd he
    rw [setCpu_cpu] at hd he
    split at hd
    · simp [hcontext] at hd
    split at he
    · simp [hcontext] at he
    exact h.uniq d e q hd he
  · intro d e q hd he
    rw [setCpu_cpu] at hd he
    split at hd
    · simp [hcontext, Thread.starting] at hd
    split at he
    · simp [hcontext] at he
    exact h.off d e q hd he
  · intro q hq hoff
    by_cases hqp : q = p
    · subst hqp
      simp [Saved, ht, Typed, hls ▸ hk]
    · have hold := h.saved q hq fun d hd => by
        refine hoff d ?_
        rw [setCpu_cpu, if_neg fun hdc => ?_]
        · exact hd
        · simp_all
      simpa [Saved, hqp] using hold

theorem Inv.chosen_saved (h : Inv w H) (hr : (w.cpu c).run = ⟨.sched (.swtch p), []⟩) :
    w.state p = .running ∧ (∀ d, (w.cpu d).run.thread ≠ .proc p) ∧ Saved w p := by
  have hfits := (h.good c).fits (.swtch p) (by rw [hr])
  have hst : w.state p = .running := hfits
  have hoff : ∀ d, (w.cpu d).run.thread ≠ .proc p := fun d => h.off c d p (by rw [hr]; rfl)
  exact ⟨hst, hoff, h.saved p (by simp [hst]) hoff⟩

theorem Inv.swtch (h : Inv w H) (hr : (w.cpu c).run = ⟨.sched (.swtch p), []⟩)
    (hw : w' = w.setCpu c
      { w.cpu c with context := ⟨.sched (.back p), []⟩, run := w.context p }) :
    ∃ H', Inv w' H' := by
  have hgood := h.good c
  rw [hr] at hgood
  have hls : H c = {.proc p} := hgood.typed
  obtain ⟨hst, hoff, hthread, htyped⟩ := h.chosen_saved hr
  have hproc : (w.cpu c).proc = some p := (hgood.field _ rfl).resolve_left nofun
  have hty : Typed (.proc p) (w.state p) (w.context p).ops (H c) := by rwa [hst, hls]
  subst hw
  refine ⟨H, fun d => ?_, fun d => ?_, h.lock, ?_, ?_, ?_⟩
  · rw [setCpu_cpu]
    split
    · subst d
      exact ⟨(h.held c).noff, (h.held c).intr⟩
    · exact h.held d
  · rw [setCpu_cpu]
    split
    · subst d
      exact Good.process hthread hty hproc rfl
    · exact h.good d
  · intro d e q hd he
    rw [setCpu_cpu] at hd he
    split at hd <;> split at he
    case isTrue.isTrue hd' he' => exact hd'.trans he'.symm
    case isTrue.isFalse =>
      obtain rfl : p = q := by simpa [hthread] using hd
      exact absurd he (hoff e)
    case isFalse.isTrue =>
      obtain rfl : p = q := by simpa [hthread] using he
      exact absurd hd (hoff d)
    case isFalse.isFalse => exact h.uniq d e q hd he
  · intro d e q hd he
    rw [setCpu_cpu] at hd he
    split at hd
    · simp [hthread, Thread.starting] at hd
    case isFalse hdc =>
    split at he
    · obtain rfl : p = q := by simpa [hthread] using he
      exact hdc (h.disjoint ((h.good d).starting_mem hd) (hls ▸ Finset.mem_singleton_self _))
    exact h.off d e q hd he
  · intro q hq hoff'
    refine h.saved q hq fun d hd => hoff' d ?_
    rw [setCpu_cpu, if_neg fun hdc => ?_]
    · exact hd
    · subst hdc
      simp [hr] at hd

end Xv6.Interrupt
