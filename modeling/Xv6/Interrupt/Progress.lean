import Xv6.Interrupt.LostWakeup

namespace Xv6.Interrupt

open Xv6.Framework Xv6.Process

variable {w : World} {H : Nat → Finset Lock} {c : Nat} {l : Lock} {tr : List (Event World Label)}

/-- CPU c spins for a lock, is outside of these functions, or comes back into exit. -/
def World.waits (w : World) (c : Nat) : Prop :=
  match (w.cpu c).run with
  | ⟨_, .acquire l :: _⟩ => w.lock l ≠ none
  | ⟨.sched (.scan _ i _), []⟩ => ∃ h : i < NPROC, w.lock (.proc ⟨i, h⟩) ≠ none
  | ⟨.proc _, []⟩ | ⟨_, .panic :: _⟩ => True
  | _ => False

theorem acquireAt_isSome (l : Lock) (r : Context) :
    (acquireAt w c l r).isSome ∨ w.lock l ≠ none := by
  by_cases hl : w.lock l = none
  · simp [acquireAt, hl]
  · exact .inr hl

theorem Inv.intr_off (h : Inv w H) (hl : l ∈ H c) : (w.cpu c).intr = false := by
  by_contra hi
  simp [(h.held c).intr (eq_true_of_ne_false hi)] at hl

theorem Inv.releaseAt_isSome (h : Inv w H) (hl : l ∈ H c) (r : Context) :
    (releaseAt w c l r).isSome := by
  have hn : 0 < (w.cpu c).noff := (h.held c).noff ▸ Finset.card_pos.mpr ⟨l, hl⟩
  simp [releaseAt, (h.lock l c).mpr hl, h.intr_off hl, hn]

theorem Inv.schedAt_isSome {t : Thread} {k : List Op} (h : Inv w H)
    (hr : (w.cpu c).run = ⟨t, .sched :: k⟩) : (schedAt w c k).isSome := by
  obtain ⟨hs, p, rfl, hls, -⟩ := h.typed hr
  have hl : .proc p ∈ H c := by simp [hls]
  have hn : (w.cpu c).noff = 1 := by rw [(h.held c).noff, hls, Finset.card_singleton]
  have hs' : (w.procs p).state ≠ .running := hs
  simp [schedAt, ((h.good c).busy p (by rw [hr])).1, (h.lock _ c).mpr hl, hn, hs', h.intr_off hl]

/-- No check of sched, release or pop_off ever fails. -/
theorem exec_progress (hp : Path next boot tr w) (hC : ∀ e ∈ tr, Uninterrupted e.pre e.label = true)
    (c : Nat) : (next w (.exec c)).isSome ∨ w.waits c := by
  obtain ⟨⟨H, h⟩, -⟩ := numbered_run hp hC
  simp only [next, exec, World.waits]
  cases hr : (w.cpu c).run with | mk t ops
  cases ops with
  | cons op k =>
    cases op with
    | acquire l => exact acquireAt_isSome l _
    | release l => exact .inl (h.releaseAt_isSome (h.typed hr).2.1 _)
    | sched => exact .inl (h.schedAt_isSome hr)
    | panic => exact .inr trivial
    | wakeupParent | yieldIf =>
      left
      simp only [execOp]
      split <;> rfl
    | _ => exact .inl rfl
  | nil =>
    have hls := (h.good c).typed
    rw [hr] at hls
    cases t with
    | proc p => exact .inr trivial
    | sched pc =>
      cases pc with
      | scan m i o =>
        simp only [schedule]
        split
        case isTrue hi => exact (acquireAt_isSome _ _).imp_right fun hl => ⟨hi, hl⟩
        case isFalse => left; split <;> rfl
      | unlock | back =>
        exact .inl (h.releaseAt_isSome (by simp [show H c = _ from hls, SchedPc.locks]) _)
      | _ => exact .inl rfl

theorem exec_progress_initWoken : (next (final next boot initWoken) (.exec 2)).isSome ∨
    (final next boot initWoken).waits 2 :=
  exec_progress (path_final (by decide +kernel)) (by decide +kernel) 2

end Xv6.Interrupt
