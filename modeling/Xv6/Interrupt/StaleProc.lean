import Xv6.Interrupt.Effects

namespace Xv6.Interrupt

open Xv6.Framework Xv6.Process

set_option maxRecDepth 8192

variable {w w' : World} {H : Nat → Finset Lock} {c d : Nat} {a : Label} {p : ProcId}
  {tr : List (Event World Label)}

/-- While interrupts are on, c->proc is 0 or the process that is RUNNING on c and on no other CPU;
yield makes no other process RUNNABLE, and sched saves no other context. -/
structure Sound (w : World) : Prop where
  field : ∀ c p, (w.cpu c).intr = true → (w.cpu c).proc = some p →
    (w.procs p).state = .running ∧ ∀ d, (w.cpu d).run.thread = .proc p ↔ d = c
  yields : ∀ c p k, (w.cpu c).run.ops = .setState p .runnable :: k →
    (w.procs p).state = .running ∧ (w.cpu c).run.thread = .proc p
  saves : ∀ c p k, (w.cpu c).run.ops = .sched :: k → (w.cpu c).proc = some p →
    (w.cpu c).run.thread = .proc p

def returnsMasked (e : Event World Label) : Bool :=
  match e.label with
  | .exec c => match (e.pre.cpu c).run with
    | ⟨.sched (.back _), []⟩ => !(e.pre.cpu c).intena
    | _ => true
  | _ => true

/-- Interrupts are off until scheduler() has cleared c->proc. -/
def Masked (w : World) : Prop :=
  ∀ c, (w.cpu c).run.thread = .sched .clearProc → (w.cpu c).intr = false

theorem Inv.sound (h : Inv w H) (hm : Masked w) : Sound w where
  field c p hi hp := by
    have hls : H c = ∅ := (h.held c).intr hi
    have hgood := h.good c
    rw [hls] at hgood
    cases ht : (w.cpu c).run.thread with
    | proc q =>
      obtain rfl : q = p := Option.some_inj.mp ((hgood.busy q ht).1.symm.trans hp)
      refine ⟨hgood.running ht (by simp), fun d => ⟨fun hd => h.uniq d c q hd ht, ?_⟩⟩
      rintro rfl
      exact ht
    | sched pc =>
      have hne : pc ≠ .clearProc := by
        rintro rfl
        rw [hm c ht] at hi
        cases hi
      have hnone : (w.cpu c).proc = none := ((hgood.field pc ht).resolve_left hne).trans
        (SchedPc.proc_of_calm (hgood.calm_of_free ht hne))
      rw [hnone] at hp
      cases hp
  yields c p k ho := by
    have hty := (h.good c).typed
    rw [ho] at hty
    obtain ⟨hs, ht, -⟩ := hty
    rw [ht] at hs
    exact ⟨hs, ht⟩
  saves c p k ho hp := by
    have hty := (h.good c).typed
    rw [ho] at hty
    obtain ⟨-, q, ht, -⟩ := hty
    obtain rfl : q = p := Option.some_inj.mp (((h.good c).busy q ht).1.symm.trans hp)
    exact ht

theorem Masked.uninterrupted (h : Masked w) (hn : next w a = some w') :
    Uninterrupted w a = true := by
  cases a with
  | interrupt c irq =>
    simp only [next] at hn
    split at hn
    case isTrue hi =>
      refine decide_eq_true fun ht => ?_
      rw [h c ht] at hi
      cases hi
    case isFalse => cases hn
  | exec _ | call _ _ | setIntr _ _ | setMode _ | setPriority _ _ => rfl

/-- Masked holds of the other CPUs as before. -/
theorem Masked.update {x : Cpu} (h : Masked w) (hcpu : w'.cpu = Function.update w.cpu c x)
    (hx : x.run.thread = .sched .clearProc → x.intr = false) : Masked w' := by
  intro d hd
  rw [hcpu, Function.update_apply] at hd ⊢
  split at hd
  case isTrue hdc =>
    rw [if_pos hdc]
    exact hx hd
  case isFalse hdc =>
    rw [if_neg hdc]
    exact h d hd

theorem masked_next (h : Inv w H) (hm : Masked w) (hn : next w a = some w')
    (hd : returnsMasked ⟨w, a, w'⟩ = true) : Masked w' := by
  cases next_cases hn with
  | @statement c t op k _ hr _ heff =>
    obtain ⟨x, hcpu, ⟨rfl, hx⟩ | ⟨hx, -⟩⟩ := heff.cpu
    · obtain ⟨-, p, rfl, -⟩ := h.typed hr
      refine hm.update hcpu fun ht => ?_
      rw [hx, ((h.good c).busy p (by rw [hr])).2] at ht
      cases ht
    · refine hm.update hcpu fun ht => ?_
      rw [hx] at ht
      have hcalm := (h.good c).calm _ ht (by simp [hr])
      cases hcalm
  | @scheduler c pc _ hr heff =>
    obtain ⟨x, hcpu, ⟨p, rfl, hx⟩ | ⟨pc', hx, hclear⟩⟩ := heff.cpu
    · refine hm.update hcpu fun ht => ?_
      rw [hx, (h.chosen_saved hr).2.2.1] at ht
      cases ht
    · refine hm.update hcpu fun ht => ?_
      rw [hx] at ht
      obtain ⟨p, rfl, hi⟩ := hclear (by simpa using ht)
      simp only [returnsMasked, hr, Bool.not_eq_true'] at hd
      rw [hi, hd, Bool.and_false]
  | outer _ heff =>
    intro c ht
    obtain ⟨hsame, hintr, -⟩ := heff.cpu c
    by_contra hi
    have hold := hintr ht (eq_true_of_ne_false hi)
    rw [hm c (hsame ▸ ht)] at hold
    cases hold

theorem masked_boot : Masked boot := fun _ h => by simp [boot] at h

theorem masked_run (hp : Path next boot tr w) (hC : ∀ e ∈ tr, returnsMasked e = true) :
    (∃ H, Inv w H) ∧ Masked w := by
  refine hp.invariant (I := fun w => (∃ H, Inv w H) ∧ Masked w) ?_ ⟨⟨_, inv_boot⟩, masked_boot⟩ hC
  rintro v a v' ⟨⟨H, h⟩, hm⟩ hn hd
  exact ⟨inv_next h hn (hm.uninterrupted hn), masked_next h hm hn hd⟩

theorem returnsMasked_eq_false {e : Event World Label} (h : returnsMasked e = false) :
    ∃ c p, e.label = .exec c ∧ (e.pre.cpu c).run = ⟨.sched (.back p), []⟩ ∧
      (e.pre.cpu c).intena = true := by
  unfold returnsMasked at h
  split at h
  case h_1 c hc =>
    split at h
    case h_1 p hr => exact ⟨c, p, hc, hr, by simpa using h⟩
    case h_2 => cases h
  case h_2 => cases h

/-- A CPU that comes back with intena set turns interrupts on while c->proc is stale. -/
theorem not_sound_of_unmasked {e : Event World Label} (h : Inv e.pre H)
    (hn : next e.pre e.label = some e.post) (hd : returnsMasked e = false) : ¬ Sound e.post := by
  obtain ⟨c, p, hc, hr, hi⟩ := returnsMasked_eq_false hd
  have hgood := h.good c
  rw [hr] at hgood
  have hproc : (e.pre.cpu c).proc = some p := (hgood.field _ rfl).resolve_left nofun
  have hnoff : (e.pre.cpu c).noff = 1 := by
    rw [(h.held c).noff, show H c = {.proc p} from hgood.typed, Finset.card_singleton]
  have hrel : releaseAt e.pre c (.proc p) ⟨.sched .clearProc, []⟩ = some e.post := by
    simpa only [hc, next, exec, hr, schedule] using hn
  obtain ⟨-, hpost⟩ := releaseAt_eq_some hrel
  intro hs
  have hthread := ((hs.field c p (by simp [hpost, Cpu.popOff, hnoff, hi])
    (by simp [hpost, Cpu.popOff, hproc])).2 c).mpr rfl
  simp [hpost] at hthread

/-- c->proc is right in every state of a run exactly if no CPU ever comes back to scheduler() with
intena set. -/
theorem proc_sound_iff (hp : Path next boot tr w) :
    (∀ e ∈ tr, returnsMasked e = true) ↔ ∀ e ∈ tr, Sound e.pre ∧ Sound e.post := by
  constructor
  · intro hC e he
    obtain ⟨l, r, rfl⟩ := List.append_of_mem he
    obtain ⟨h1, hn, -⟩ := hp.split
    obtain ⟨⟨H, h⟩, hm⟩ := masked_run h1 fun x hx => hC x (by simp [hx])
    obtain ⟨H', h'⟩ := inv_next h hn (hm.uninterrupted hn)
    exact ⟨h.sound hm, h'.sound (masked_next h hm hn (hC e (by simp)))⟩
  · intro hS
    by_contra hC
    obtain ⟨l, e, r, rfl, hl, hd⟩ := exists_first_failure hC
    obtain ⟨h1, hn, -⟩ := hp.split
    obtain ⟨⟨H, h⟩, -⟩ := masked_run h1 hl
    exact not_sound_of_unmasked h hn (eq_false_of_ne_true hd) (hS e (by simp)).2

/-- CPU 1 runs init, which yields in usertrap with interrupts off. -/
def initYields : List Label :=
  List.replicate 7 (.exec 1) ++ [.setIntr 1 false, .call 1 .yield] ++ List.replicate 5 (.exec 1)

theorem proc_sound_initYields :
    (∃ e ∈ events next boot initYields, (e.pre.procs initproc).state = .running ∧
      (e.post.procs initproc).state = .runnable) ∧
    ∀ e ∈ events next boot initYields, Sound e.pre ∧ Sound e.post := by
  have hp : Path next boot _ (final next boot initYields) := path_final rfl
  exact ⟨by decide, (proc_sound_iff hp).mp (by decide)⟩

/-- CPU 1 runs init, which goes to sleep with interrupts on; the timer then interrupts
scheduler(). -/
def initYanked : List Label :=
  List.replicate 7 (.exec 1) ++ [.call 1 (.sleep (.obj 0) (.obj 0))] ++
    List.replicate 7 (.exec 1) ++ [.interrupt 1 .timer] ++ List.replicate 4 (.exec 1)

theorem initYanked_runnable :
    Path next boot (events next boot initYanked) (final next boot initYanked) ∧
    (∃ e ∈ events next boot initYanked, (e.post.cpu 1).intr = true ∧
      (e.post.cpu 1).proc = some initproc ∧ (e.post.procs initproc).state = .sleeping) ∧
    (∃ e ∈ events next boot initYanked, (e.pre.procs initproc).state = .sleeping ∧
      (e.post.procs initproc).state = .runnable) ∧
    ((final next boot initYanked).context initproc).thread = .sched .clearProc ∧
    ¬ ∀ e ∈ events next boot initYanked, Sound e.pre ∧ Sound e.post := by
  have hstale : ∃ e ∈ events next boot initYanked, (e.post.cpu 1).intr = true ∧
      (e.post.cpu 1).proc = some initproc ∧ (e.post.procs initproc).state = .sleeping := by decide
  refine ⟨path_final rfl, hstale, by decide, by decide, fun h => ?_⟩
  obtain ⟨e, he, h1, h2, h3⟩ := hstale
  have hrunning := ((h e he).2.field 1 initproc h1 h2).1
  rw [h3] at hrunning
  cases hrunning

end Xv6.Interrupt
