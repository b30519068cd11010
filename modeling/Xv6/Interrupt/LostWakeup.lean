import Xv6.Interrupt.Effects

namespace Xv6.Interrupt

open Xv6.Framework Xv6.Process

set_option maxRecDepth 8192

variable {w w' : World} {H : Nat → Finset Lock} {c n i : Nat} {t : Thread} {op o : Op} {k : List Op}
  {a : Label} {p q : ProcId} {v : Sweep} {ch : Chan} {e : Event World Label}
  {tr : List (Event World Label)}

/-- The statement of a process or of an interrupt handler that a step executes. -/
def executes (w : World) : Label → Option Op
  | .exec c => (w.cpu c).run.ops.head?
  | _ => none

theorem exists_run (h : executes w (.exec c) = some op) : ∃ t k, (w.cpu c).run = ⟨t, op :: k⟩ := by
  obtain ⟨k, hk⟩ := List.head?_eq_some_iff.mp h
  exact ⟨(w.cpu c).run.thread, k, by rw [← hk]⟩

/-- A statement is left to execute on a CPU or in a saved context. -/
def Pending (w : World) (o : Op) : Prop :=
  (∃ c, o ∈ (w.cpu c).run.ops) ∨ ∃ p, o ∈ (w.context p).ops

/-- The statements of a sweep come from its start or from an earlier statement of it. -/
theorem pending_next (h : Inv w H) (hn : next w a = some w') (ho : Pending w' o) :
    o.call = none ∨ Pending w o ∨ ∃ c t op k, a = .exec c ∧ (w.cpu c).run = ⟨t, op :: k⟩ ∧
      op.Adds w.calls (w.cpu c).proc o := by
  cases next_cases hn with
  | @statement c t op k _ hr _ heff =>
    have hk : o ∈ k → Pending w o := fun hk => .inl ⟨c, by simp [hr, hk]⟩
    rcases ho with ⟨d, hd⟩ | ⟨p, hp⟩
    · obtain ⟨x, hcpu, hx⟩ := heff.cpu
      rw [hcpu, Function.update_apply] at hd
      split at hd
      · rcases hx with ⟨rfl, hx⟩ | ⟨-, hx⟩
        · obtain ⟨-, p, rfl, -⟩ := h.typed hr
          rw [hx, ((h.good c).busy p (by rw [hr])).2] at hd
          cases hd
        · rcases hx o hd with hmem | hcall | hadds
          · exact .inr (.inl (hk hmem))
          · exact .inl hcall
          · exact .inr (.inr ⟨c, t, op, k, rfl, hr, hadds⟩)
      · exact .inr (.inl (.inl ⟨d, hd⟩))
    · rcases heff.context p o hp with hmem | hmem | hcall
      · exact .inr (.inl (.inr ⟨p, hmem⟩))
      · exact .inr (.inl (hk hmem))
      · exact .inl hcall
  | @scheduler c pc _ hr heff =>
    rcases ho with ⟨d, hd⟩ | ⟨p, hp⟩
    · obtain ⟨x, hcpu, hx⟩ := heff.cpu
      rw [hcpu, Function.update_apply] at hd
      split at hd
      · rcases hx with ⟨p, -, hx⟩ | ⟨pc', hx, -⟩
        · exact .inr (.inl (.inr ⟨p, hx ▸ hd⟩))
        · rw [hx] at hd
          cases hd
      · exact .inr (.inl (.inl ⟨d, hd⟩))
    · exact .inr (.inl (.inr ⟨p, heff.context ▸ hp⟩))
  | outer _ heff =>
    rcases ho with ⟨d, hd⟩ | ⟨p, hp⟩
    · exact ((heff.cpu d).2.2 o hd).symm.imp_right fun hmem => .inl (.inl ⟨d, hmem⟩)
    · exact .inr (.inl (.inr ⟨p, heff.context ▸ hp⟩))

theorem calls_next (hn : next w a = some w') :
    w.calls ≤ w'.calls ∧ ∀ v, executes w a = some (.start v) → w'.calls = w.calls + 1 := by
  cases next_cases hn with
  | statement hr _ heff =>
    refine ⟨by rw [heff.calls]; exact Nat.le_add_right _ _, fun v hv => ?_⟩
    obtain rfl : _ = Op.start v := by simpa [executes, hr] using hv
    exact heff.calls
  | scheduler hr heff => exact ⟨heff.calls.ge, fun v hv => by simp [executes, hr] at hv⟩
  | @outer a _ ha heff =>
    refine ⟨heff.calls.ge, fun v hv => ?_⟩
    cases a with
    | exec c => exact absurd rfl (ha c)
    | _ => cases hv

def Numbered (w : World) : Prop := ∀ o, Pending w o → ∀ n, o.call = some n → n < w.calls

theorem numbered_next (h : Inv w H) (hf : Numbered w) (hn : next w a = some w') :
    Numbered w' := by
  intro o ho n hcall
  have hle := (calls_next hn).1
  rcases pending_next h hn ho with hnone | hold | ⟨c, t, op, k, rfl, hr, hadds⟩
  · rw [hnone] at hcall
    cases hcall
  · exact (hf o hold n hcall).trans_le hle
  · have hop : Pending w op := .inl ⟨c, by simp [hr]⟩
    cases op with
    | start v =>
      obtain rfl : o = _ := hadds
      cases hcall
      rw [(calls_next hn).2 v (by simp [executes, hr])]
      exact Nat.lt_succ_self _
    | sweep m v i =>
      obtain ⟨hi, hadds⟩ := hadds
      obtain rfl : m = n := by
        split at hadds <;> (subst hadds; simpa [Op.call] using hcall)
      exact (hf _ hop m rfl).trans_le hle
    | touch m v p =>
      obtain rfl : o = _ := hadds
      obtain rfl : m = n := by simpa [Op.call] using hcall
      exact (hf _ hop m rfl).trans_le hle
    | _ => cases hadds

/-- The test p != myproc() passes over no process but one that is RUNNING. -/
theorem Inv.myproc_running (h : Inv w H) (hr : (w.cpu c).run = ⟨t, .sweep n v i :: k⟩)
    (hp : (w.cpu c).proc = some p) : w.state p = .running := by
  cases t with
  | sched pc =>
    rw [(h.good c).idle (by rw [hr]) (by simp [hr])] at hp
    cases hp
  | proc q =>
    obtain rfl : q = p :=
      Option.some_inj.mp (((h.good c).busy q (by rw [hr])).1.symm.trans hp)
    exact (h.typed hr).1

theorem Sweep.apply_chan (v : Sweep) (x : Proc) : (v.apply x).chan = x.chan := by
  cases v with
  | wakeup ch => grind [Sweep.apply, Proc.wakeup]
  | updateTime => grind [Sweep.apply, Proc.updateTime]
  | kill pid => grind [Sweep.apply, Proc.kill]

theorem touch_procs (he : execOp w c (.touch n v p) k = some w') :
    w'.procs p = v.apply (w.procs p) := by
  cases he
  exact (setProc_procs w p p _).trans (if_pos rfl)

/-- A SLEEPING process keeps its channel, and can only become RUNNABLE. -/
theorem sleeping_execOp (h : Inv w H) (hr : (w.cpu c).run = ⟨t, op :: k⟩)
    (he : execOp w c op k = some w') (hs : w.state p = .sleeping) :
    (w'.procs p).chan = (w.procs p).chan ∧ (w'.state p = .sleeping ∨ w'.state p = .runnable) := by
  by_cases hp : op.target = some p
  · have hty := h.typed hr
    cases op with
    | setState q s =>
      obtain ⟨hrun, rfl, -⟩ := hty
      obtain rfl : q = p := Option.some_inj.mp hp
      cases hs.symm.trans hrun
    | setChan q ch =>
      obtain ⟨hrun, rfl, -⟩ := hty
      obtain rfl : q = p := Option.some_inj.mp hp
      cases hs.symm.trans hrun
    | touch n v q =>
      obtain rfl : q = p := Option.some_inj.mp hp
      rw [World.state, touch_procs he]
      exact ⟨v.apply_chan _, (v.apply_state _).imp (fun hv => hv.trans hs) And.right⟩
    | spawn q =>
      obtain rfl : q = p := Option.some_inj.mp hp
      cases he
      have hkeep : spawnAt w c q = w := if_neg fun hu => by cases hs.symm.trans hu
      rw [hkeep]
      exact ⟨rfl, .inl hs⟩
    | freeproc q =>
      obtain rfl : q = p := Option.some_inj.mp hp
      cases he
      have hkeep : freeAt w c q = w := if_neg fun hz => by cases hs.symm.trans hz.2
      rw [hkeep]
      exact ⟨rfl, .inl hs⟩
    | _ => cases hp
  · obtain ⟨h1, h2⟩ := (execOp_effect he).procs p hp
    exact ⟨h2, .inl (h1.trans hs)⟩

theorem sleeping_next (h : Inv w H) (hn : next w a = some w') (hs : w.state p = .sleeping) :
    (w'.procs p).chan = (w.procs p).chan ∧ (w'.state p = .sleeping ∨ w'.state p = .runnable) := by
  cases next_cases hn with
  | statement hr he _ => exact sleeping_execOp h hr he hs
  | @scheduler c pc _ hr heff =>
    have hne : pc ≠ .setRunning p := by
      rintro rfl
      have hfits := (h.good c).fits (.setRunning p) (by rw [hr])
      cases hs.symm.trans hfits
    obtain ⟨h1, h2⟩ := heff.procs p hne
    exact ⟨h2, .inl (h1.trans hs)⟩
  | outer _ heff =>
    obtain ⟨h1, h2⟩ := heff.procs p
    exact ⟨h2, .inl (h1.trans hs)⟩

/-- A statement of a sweep leaves a RUNNABLE process alone. -/
theorem runnable_call (hn : next w a = some w') (hop : executes w a = some op)
    (hcall : op.call = some n) (hs : w.state p = .runnable) : w'.state p = .runnable := by
  cases next_cases hn with
  | @statement c t op' k _ hr he heff =>
    obtain rfl : op' = op := by simpa [executes, hr] using hop
    by_cases hp : op'.target = some p
    · cases op' with
      | touch m v q =>
        obtain rfl : q = p := Option.some_inj.mp hp
        rw [World.state, touch_procs he]
        refine ((v.apply_state _).resolve_right fun hv => ?_).trans hs
        cases hs.symm.trans hv.1
      | sweep m v j => cases hp
      | _ => cases hcall
    · exact (heff.procs p hp).1.trans hs
  | scheduler hr _ => simp [executes, hr] at hop
  | @outer a _ ha _ =>
    cases a with
    | exec c => exact absurd rfl (ha c)
    | _ => cases hop

/-- What is left of call n of wakeup(ch) starts at the slot of p or before it. -/
def Ahead (n : Nat) (ch : Chan) (p : ProcId) : Op → Prop
  | .sweep m v i => m = n → v = .wakeup ch ∧ i ≤ p
  | .touch m v q => m = n → v = .wakeup ch ∧ (q : Nat) ≤ p
  | _ => True

theorem ahead_of_call (h : o.call ≠ some n) : Ahead n ch p o := by
  cases o with
  | sweep m v i => exact fun hm => absurd (congrArg some hm) h
  | touch m v q => exact fun hm => absurd (congrArg some hm) h
  | _ => trivial

/-- While p is SLEEPING, the statements of call n stay ahead of it. -/
theorem ahead_next (h : Inv w H) (hn : next w a = some w') (hcalls : n < w.calls)
    (hs : w.state p = .sleeping) (hs' : w'.state p = .sleeping)
    (hch : (w.procs p).chan = some ch) (ha : ∀ o, Pending w o → Ahead n ch p o)
    (ho : Pending w' o) : Ahead n ch p o := by
  rcases pending_next h hn ho with hnone | hold | ⟨c, t, op, k, rfl, hr, hadds⟩
  · exact ahead_of_call (by simp [hnone])
  · exact ha o hold
  · have hop := ha op (.inl ⟨c, by simp [hr]⟩)
    cases op with
    | start v =>
      obtain rfl : o = _ := hadds
      exact ahead_of_call fun hm => hcalls.ne' (Option.some_inj.mp hm)
    | sweep m v i =>
      obtain ⟨hi, hadds⟩ := hadds
      split at hadds <;> subst hadds <;> intro hm <;> obtain ⟨rfl, hle⟩ := hop hm
      case isTrue hskip =>
        have hne : i ≠ p := by
          rintro rfl
          cases hs.symm.trans (h.myproc_running hr (of_decide_eq_true hskip))
        exact ⟨rfl, by omega⟩
      case isFalse => exact ⟨rfl, hle⟩
    | touch m v q =>
      obtain rfl : o = _ := hadds
      intro hm
      obtain ⟨rfl, hle⟩ := hop hm
      have hne : q ≠ p := by
        rintro rfl
        have he : execOp w c (.touch m (.wakeup ch) q) k = some w' := by
          simpa [next, exec, hr] using hn
        rw [World.state, touch_procs he, Sweep.apply, Proc.wakeup, if_pos ⟨hs, hch⟩] at hs'
        cases hs'
      exact ⟨rfl, by have := Fin.val_ne_of_ne hne; omega⟩
    | _ => cases hadds

/-- Call n of wakeup(ch), started while p was asleep on ch, has woken p up or will come to it. -/
structure Wakes (n : Nat) (ch : Chan) (p : ProcId) (w : World) : Prop where
  inv : ∃ H, Inv w H
  started : n < w.calls
  wakes : w.state p = .runnable ∨ w.state p = .sleeping ∧ (w.procs p).chan = some ch ∧
    ∀ o, Pending w o → Ahead n ch p o

/-- No other step than one of call n changes the state of p. -/
def Undisturbed (n : Nat) (p : ProcId) (e : Event World Label) : Prop :=
  (e.post.procs p).state = (e.pre.procs p).state ∨
    (executes e.pre e.label).bind Op.call = some n

instance : Decidable (Undisturbed n p e) := inferInstanceAs (Decidable (_ ∨ _))

theorem wakes_next (h : Wakes n ch p w) (hn : next w a = some w')
    (hq : Uninterrupted w a = true) (hu : Undisturbed n p ⟨w, a, w'⟩) : Wakes n ch p w' := by
  obtain ⟨⟨H, hi⟩, hstarted, hw⟩ := h
  refine ⟨inv_next hi hn hq, hstarted.trans_le (calls_next hn).1, ?_⟩
  rcases hw with hs | ⟨hs, hch, ha⟩
  · rcases hu with hsame | hcall
    · exact .inl (hsame.trans hs)
    · obtain ⟨op, hop, hcall⟩ := Option.bind_eq_some_iff.mp hcall
      exact .inl (runnable_call hn hop hcall hs)
  · obtain ⟨hch', hs' | hs'⟩ := sleeping_next hi hn hs
    · exact .inr ⟨hs', hch'.trans hch, fun o ho => ahead_next hi hn hstarted hs hs' hch ha ho⟩
    · exact .inl hs'

theorem wakes_start (h : Inv w H) (hf : Numbered w) (hn : next w a = some w')
    (hq : Uninterrupted w a = true) (hstart : executes w a = some (.start (.wakeup ch)))
    (hs : w.state p = .sleeping) (hch : (w.procs p).chan = some ch) : Wakes w.calls ch p w' := by
  refine ⟨inv_next h hn hq, by rw [(calls_next hn).2 _ hstart]; exact Nat.lt_succ_self _, ?_⟩
  obtain ⟨hch', hs' | hs'⟩ := sleeping_next h hn hs
  · refine .inr ⟨hs', hch'.trans hch, fun o ho => ?_⟩
    rcases pending_next h hn ho with hnone | hold | ⟨c, t, op, k, rfl, hr, hadds⟩
    · exact ahead_of_call (by simp [hnone])
    · exact ahead_of_call fun hcall => (hf o hold _ hcall).false
    · obtain rfl : op = .start (.wakeup ch) := by simpa [executes, hr] using hstart
      obtain rfl : o = _ := hadds
      exact fun _ => ⟨rfl, Nat.zero_le _⟩
  · exact .inl hs'

/-- A call that returns has come to the slot of p. -/
theorem Wakes.returns (h : Wakes n ch p w) (hop : executes w a = some (.sweep n (.wakeup ch) i))
    (hi : NPROC ≤ i) : w.state p = .runnable := by
  refine h.wakes.resolve_right fun ⟨_, _, ha⟩ => ?_
  cases a with
  | exec c =>
    have hp := ha (.sweep n (.wakeup ch) i) (.inl ⟨c, List.mem_of_head? hop⟩) rfl
    omega
  | _ => cases hop

/-- A call of wakeup(ch), from its start to its return, makes every process RUNNABLE that was asleep
on ch when it started, unless another step changes the state of the process meanwhile; and the test
p != myproc() passes over no SLEEPING process. -/
structure WakesSleepers (tr : List (Event World Label)) : Prop where
  wakes : ∀ l m r s f ch p i, tr = l ++ s :: (m ++ f :: r) →
    executes s.pre s.label = some (.start (.wakeup ch)) →
    (s.pre.procs p).state = .sleeping → (s.pre.procs p).chan = some ch →
    executes f.pre f.label = some (.sweep s.pre.calls (.wakeup ch) i) → NPROC ≤ i →
    (∀ e ∈ m, Undisturbed s.pre.calls p e) → (f.post.procs p).state = .runnable
  skips : ∀ e ∈ tr, ∀ c n ch (p : ProcId), e.label = .exec c →
    executes e.pre e.label = some (.sweep n (.wakeup ch) p) → (e.pre.cpu c).proc = some p →
    (e.pre.procs p).state ≠ .sleeping

theorem numbered_run (hp : Path next boot tr w)
    (hC : ∀ e ∈ tr, Uninterrupted e.pre e.label = true) : (∃ H, Inv w H) ∧ Numbered w := by
  refine hp.invariant (I := fun w => (∃ H, Inv w H) ∧ Numbered w) ?_ ⟨⟨_, inv_boot⟩, ?_⟩ hC
  · rintro v a v' ⟨⟨H, h⟩, hf⟩ hn hq
    exact ⟨inv_next h hn hq, numbered_next h hf hn⟩
  · rintro o (⟨c, hc⟩ | ⟨p, hp⟩) n hcall
    · simp [boot] at hc
    · obtain rfl : o = .release (.proc p) := by simpa [boot, forkret] using hp
      cases hcall

theorem no_lost_wakeup (hp : Path next boot tr w)
    (hC : ∀ e ∈ tr, Uninterrupted e.pre e.label = true) : WakesSleepers tr where
  wakes l m r s f ch p i htr hstart hs hch hret hi hu := by
    subst htr
    obtain ⟨h1, hn, hrest⟩ := hp.split
    obtain ⟨hmid, hnf, -⟩ := hrest.split
    obtain ⟨⟨H, h⟩, hf⟩ := numbered_run h1 fun e he => hC e (by simp [he])
    have hw := wakes_start h hf hn (hC s (by simp)) hstart hs hch
    have hw' : Wakes s.pre.calls ch p f.pre := by
      refine hmid.invariant (C := fun e => Uninterrupted e.pre e.label = true ∧
        Undisturbed s.pre.calls p e) ?_ hw fun e he => ⟨hC e (by simp [he]), hu e he⟩
      exact fun v a v' hv hn hC => wakes_next hv hn hC.1 hC.2
    have hrunnable : f.pre.state p = .runnable := hw'.returns hret hi
    exact runnable_call hnf hret rfl hrunnable
  skips e he c n ch p hc hop hproc hs := by
    obtain ⟨l, r, rfl⟩ := List.append_of_mem he
    obtain ⟨⟨H, h⟩, -⟩ := numbered_run hp.split.1 fun e he => hC e (by simp [he])
    rw [hc] at hop
    obtain ⟨t, k, hr⟩ := exists_run hop
    cases hs.symm.trans (h.myproc_running hr hproc)

def initSleeps : List Label :=
  List.replicate 7 (.exec 1) ++ [.call 1 (.sleep (.obj 0) (.obj 0))] ++ List.replicate 7 (.exec 1)

/-- CPU 1 returns to scheduler(), and the device then interrupts CPU 2. -/
def initWoken : List Label :=
  initSleeps ++ [.exec 1, .exec 2, .interrupt 2 (.device 0 (.obj 0))] ++
    List.replicate 259 (.exec 2)

theorem no_lost_wakeup_initWoken :
    ((final next boot initSleeps).procs initproc).state = .sleeping ∧
      ((final next boot initWoken).procs initproc).state = .runnable ∧
      WakesSleepers (events next boot initWoken) := by
  have hp : Path next boot _ (final next boot initWoken) := path_final (by decide +kernel)
  exact ⟨by decide +kernel, by decide +kernel, no_lost_wakeup hp (by decide +kernel)⟩

/-- The device interrupts CPU 1 before it has cleared c->proc. -/
def initMissed : List Label :=
  initSleeps ++ [.interrupt 1 (.device 0 (.obj 0))] ++ List.replicate 256 (.exec 1)

theorem initMissed_length : 271 < (events next boot initMissed).length := by decide +kernel

theorem initMissed_sleeps :
    Path next boot (events next boot initMissed) (final next boot initMissed) ∧
      ((final next boot initMissed).procs initproc).state = .sleeping ∧
      ¬ WakesSleepers (events next boot initMissed) := by
  refine ⟨path_final (by decide +kernel), by decide +kernel, fun h => ?_⟩
  have hwoken := h.wakes _ _ _ _ _ (.obj 0) initproc 64
    (cut_twice (by decide : 17 < 271) initMissed_length) (by decide +kernel)
    (by decide +kernel) (by decide +kernel) (by decide +kernel) (by decide +kernel)
    (by decide +kernel)
  revert hwoken
  decide +kernel

end Xv6.Interrupt
