import Xv6.Sections.Records

namespace Xv6.Sections

open Xv6.Framework Xv6.Process

variable {w w' : World} {c : Nat} {p q i : ProcId} {x : Proc} {l : Label}
  {tr : List (Event World Label)}

/-- Steps of a machine that has CPU 0 only. -/
def onCpu0 (e : Event World Label) : Bool :=
  match e.label with
  | .sched c | .proc c _ => decide (c = 0)
  | _ => true

/-- The other CPUs have never left the start of their scheduler. -/
def Solo (w : World) : Prop := ∀ c, c ≠ 0 → w.cpu c = .scan .roundRobin 0 none

theorem solo_boot : Solo boot := fun _ _ => rfl

theorem solo_update (hs : Solo w) {y : Cpu} (h : w'.cpu = update w.cpu 0 y) :
    Solo w' := by
  intro c hc
  rw [h, update_of_ne hc]
  exact hs c hc

theorem solo_step (hs : Solo w) (h : Step w l w') (ho : onCpu0 ⟨w, l, w'⟩ = true) :
    Solo w' := by
  cases h with
  | sched h =>
    obtain rfl := of_decide_eq_true ho
    cases h <;> exact solo_update hs rfl
  | proc _ h =>
    obtain rfl := of_decide_eq_true ho
    cases h with
    | waitSleepSched | exitSched | sleep | yield => exact solo_update hs rfl
    | forkAlloc _ _ _ ok => cases ok <;> exact hs
    | _ => exact hs
  | _ => exact hs

theorem Solo.cpu0 (hs : Solo w) (h : w.cpu c = .run p) : c = 0 := by
  by_contra hc
  rw [hs c hc] at h
  cases h

theorem Solo.running (hs : Solo w) (hl : Locks w) (hr : (w.procs p).state = .running) :
    w.cpu 0 = .run p := by
  obtain ⟨c, hc⟩ := hl.onCpu p hr
  rw [hs.cpu0 hc] at hc
  exact hc

/-- CPU 0 does not leave clockintr for anything else. -/
theorem clock_idle (h : next w l = some w') (hl : l = .sched 0 ∨ ∃ a, l = .proc 0 a) :
    w.clock = .idle := by
  rcases hl with rfl | ⟨a, rfl⟩ <;>
  · simp only [next] at h
    split at h
    case isTrue hr => simpa [World.ready] using hr
    case isFalse => cases h

theorem tick_interruptible (h : next w .clock = some w') (hc : w.clock = .idle) :
    w.interruptible = true := by
  simp only [next, clockStep, hc] at h
  split at h
  case isTrue hi => exact hi
  case isFalse => cases h

/-- Where the RUNNABLE processes come from. -/
theorem runnable_origin (hl : Locks w) (h : Step w l w') (hi : (w'.procs i).state = .runnable) :
    (w.procs i).state = .runnable ∨ dormant (w.procs i).state = true ∨
      (w.procs i).state = .running ∧ ∃ c, w.cpu c = .run i ∧ w'.cpu c = .switched i := by
  cases step_moves hl h i with
  | stays hs => exact .inl (hs.symm.trans hi)
  | readied hs => exact .inr (.inl hs)
  | starts hs => exact .inl hs
  | leaves hs hs' _ hc =>
    rcases hs' with h | h | ⟨-, hsw⟩
    · simp [hi] at h
    · simp [hi] at h
    · exact .inr (.inr ⟨hs, _, hc, hsw⟩)
  | enters he => simp [he.used] at hi
  | reaped hr => simp [hr.post, reapAt_procs, Proc.freeproc] at hi

/-- A process leaves the table only through exit. -/
theorem alive_step (hl : Locks w) (h : Step w l w') (hi : alive (w.procs i).state = true) :
    placed (w'.procs i).state = true := by
  cases step_moves hl h i with
  | stays hs => simp [placed, hs, hi]
  | readied _ hs' | starts _ hs' => rw [hs']; rfl
  | leaves _ hs' => rcases hs' with h | h | ⟨h, -⟩ <;> (rw [h]; rfl)
  | enters he =>
    rw [he.free] at hi
    cases hi
  | reaped hr =>
    rw [hr.zombie] at hi
    cases hi

end Xv6.Sections
