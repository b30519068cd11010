import Xv6.Sections.Records

set_option maxRecDepth 8192

namespace Xv6.Sections

open Xv6.Framework Xv6.Process

variable {w w' : World} {c : Nat} {p q : ProcId} {l : Label} {tr : List (Event World Label)}

/-- The CPU whose scheduler starts a process in this step, and the process. -/
def dispatched (e : Event World Label) : Option (Nat × ProcId) :=
  match e.label with
  | .sched c => match e.post.cpu c with
    | .run p => some (c, p)
    | _ => none
  | _ => none

/-- Between two dispatches of p by one CPU, q is dispatched if it is RUNNABLE after the first. -/
def NotBypassed (tr : List (Event World Label)) (p q : ProcId) : Prop :=
  ∀ l m r e₁ e₂ c, tr = l ++ e₁ :: (m ++ e₂ :: r) → dispatched e₁ = some (c, p) →
    dispatched e₂ = some (c, p) → (e₁.post.procs q).state = .runnable →
    ∃ e ∈ m, ∃ d, dispatched e = some (d, q)

theorem dispatched_sched {d : Nat} (h : dispatched ⟨w, .sched d, w'⟩ = some (c, p)) :
    d = c ∧ w'.cpu c = .run p := by
  unfold dispatched at h
  cases hc : w'.cpu d with
  | run r =>
    simp only [hc] at h
    obtain ⟨rfl, rfl⟩ := h
    exact ⟨rfl, hc⟩
  | scan m i o => simp [hc] at h
  | switched r => simp [hc] at h

/-- A RUNNABLE process stays so until it is dispatched. -/
theorem runnable_step (hl : Locks w) (h : Step w l w') (hq : (w.procs q).state = .runnable) :
    (w'.procs q).state = .runnable ∨ ∃ d, dispatched ⟨w, l, w'⟩ = some (d, q) := by
  cases step_moves hl h q with
  | stays hs => exact .inl (hs.trans hq)
  | readied _ hs' => exact .inl hs'
  | @starts c _ _ _ hl hc => exact .inr ⟨c, by simp [dispatched, hl, hc]⟩
  | enters he => simp [he.free] at hq
  | leaves hs => simp [hq] at hs
  | reaped hr => simp [hr.zombie] at hq

theorem section_cpu (h : Section w c p w') (d : Nat) :
    w'.cpu d = w.cpu d ∨ ∃ r, w'.cpu d = .switched r := by
  have hsw (x : Proc) (k : Pc) :
      (swtch w c p x k).cpu d = w.cpu d ∨ ∃ r, (swtch w c p x k).cpu d = .switched r := by
    by_cases hd : d = c <;> simp [swtch, hd]
  cases h with
  | waitSleepSched | exitSched | sleep | yield => exact hsw _ _
  | forkAlloc _ _ _ ok => cases ok <;> exact .inl rfl
  | _ => exact .inl rfl

/-- Every scan is one of round robin. -/
def Scans (w : World) : Prop :=
  ∀ c m i o, w.cpu c = .scan m i o → m = .roundRobin ∧ o = none

theorem scans_step (hs : Scans w) (hm : w.mode = .roundRobin) (h : Step w l w') : Scans w' := by
  intro d m i o hd
  cases h with
  | proc _ h =>
    rcases section_cpu h d with hc | ⟨r, hc⟩
    · exact hs d m i o (hc ▸ hd)
    · rw [hc] at hd
      cases hd
  | @sched c _ h =>
    have hsd := hs d m i o
    cases h with
    | choose hc hne => exact absurd (hs c _ _ _ hc).1 hne
    | rechoose hc hne => exact absurd (hs c _ _ _ hc).1 hne
    | last hc => cases (hs c _ _ _ hc).2
    | skip hc =>
      have hsc := hs c _ _ _ hc
      grind
    | first => grind
    | _ => grind
  | _ => exact hs d m i o hd

/-- The scan of CPU c, if it is in one, has not passed q, which waits. -/
def Ahead (c : Nat) (q : ProcId) (w : World) : Prop :=
  (w.procs q).state = .runnable ∧ ∀ m i o, w.cpu c = .scan m i o → i ≤ q.val

theorem ahead_step (hl : Locks w) (hs : Scans w) (ha : Ahead c q w) (h : Step w l w')
    (hd : ∀ d, dispatched ⟨w, l, w'⟩ ≠ some (d, q)) : Ahead c q w' := by
  refine ⟨(runnable_step hl h ha.1).resolve_right fun ⟨d, h⟩ => hd d h, fun m i o hc' => ?_⟩
  have hold := ha.2 m i o
  cases h with
  | proc _ h =>
    rcases section_cpu h c with hc | ⟨r, hc⟩
    · exact hold (hc ▸ hc')
    · rw [hc] at hc'
      cases hc'
  | @sched d _ h =>
    cases h with
    | @skip m' p o' hc hf hr =>
      obtain ⟨rfl, rfl⟩ := hs d _ _ _ hc
      have hne : p ≠ q := by
        rintro rfl
        cases hr ha.1
      have hle := ha.2 .roundRobin p none
      grind
    | choose hc hne => exact absurd (hs d _ _ _ hc).1 hne
    | rechoose hc hne => exact absurd (hs d _ _ _ hc).1 hne
    | idle hc hi => grind
    | back hc => grind
    | first => grind
    | last => grind
  | _ => exact hold hc'

structure Rotation (w : World) : Prop where
  locks : Locks w
  scans : Scans w
  mode : w.mode = .roundRobin

theorem rotation_next (hr : Rotation w) (h : next w l = some w') (hm : w'.mode = .roundRobin) :
    Rotation w' :=
  ⟨locks_step hr.locks (next_cases h), scans_step hr.scans hr.mode (next_cases h), hm⟩

theorem rotation_boot : Rotation boot :=
  ⟨locks_boot, fun c m i o h => by simp_all [boot], rfl⟩

theorem rotation_run (h : Path next w tr w') (hr : Rotation w)
    (hm : ∀ e ∈ tr, e.post.mode = .roundRobin) : Rotation w' :=
  h.invariant
    (fun _ _ _ hi hn hC => rotation_next hi hn hC) hr hm

/-- While q waits undispatched, no scan of CPU c passes it. -/
theorem ahead_run (h : Path next w tr w') (hr : Rotation w) (ha : Ahead c q w)
    (hm : ∀ e ∈ tr, e.post.mode = .roundRobin)
    (hd : ∀ e ∈ tr, ∀ d, dispatched e ≠ some (d, q)) : Rotation w' ∧ Ahead c q w' := by
  refine h.invariant (I := fun w => Rotation w ∧ Ahead c q w)
    (C := fun e => e.post.mode = .roundRobin ∧ ∀ d, dispatched e ≠ some (d, q)) ?_ ⟨hr, ha⟩
    fun e he => ⟨hm e he, hd e he⟩
  intro s a t ⟨hr, ha⟩ hn hC
  exact ⟨rotation_next hr hn hC.1, ahead_step hr.locks hr.scans ha (next_cases hn) hC.2⟩

/-- A CPU that dispatches p has passed every lower slot. -/
theorem dispatched_passed (hs : Scans w) (ha : Ahead c q w) (h : Step w l w')
    (hd : dispatched ⟨w, l, w'⟩ = some (c, p)) : p ≤ q := by
  cases h with
  | @sched d _ h =>
    obtain ⟨rfl, hrun⟩ := dispatched_sched hd
    cases h with
    | @first r o hc =>
      have hr : r = p := by simpa [dispatch] using hrun
      subst hr
      exact ha.2 _ _ _ hc
    | last hc => cases (hs d _ _ _ hc).2
    | _ => simp at hrun
  | _ => simp [dispatched] at hd

theorem ahead_dispatched (h : Step w l w') (hd : dispatched ⟨w, l, w'⟩ = some (c, p))
    (hq : (w'.procs q).state = .runnable) : Ahead c q w' := by
  refine ⟨hq, fun m i o hc => ?_⟩
  cases h with
  | sched =>
    rw [(dispatched_sched hd).2] at hc
    cases hc
  | _ => simp [dispatched] at hd

/-- A waiting process is not bypassed twice by a process in a higher slot. -/
theorem round_robin (h : Path next boot tr w) (hm : ∀ e ∈ tr, e.post.mode = .roundRobin)
    (hq : q < p) : NotBypassed tr p q := by
  intro l m r e₁ e₂ c htr h₁ h₂ hrun
  by_contra hno
  push Not at hno
  subst htr
  obtain ⟨hp₁, hn₁, hrest⟩ := h.split
  obtain ⟨hp₂, hn₂, -⟩ := hrest.split
  have hr₁ : Rotation e₁.post := by
    refine rotation_next (rotation_run hp₁ rotation_boot fun e he => hm e ?_) hn₁ (hm e₁ ?_)
    all_goals simp [*]
  have ha₁ := ahead_dispatched (next_cases hn₁) h₁ hrun
  obtain ⟨hr₂, ha₂⟩ := ahead_run hp₂ hr₁ ha₁ (fun e he => hm e (by simp [he])) hno
  have hle := dispatched_passed hr₂.scans ha₂ (next_cases hn₂) h₂
  exact absurd hq (Fin.not_lt.mpr hle)

/-- CPU 1 dispatches the child while init waits, and again after CPU 0 has dispatched init. -/
def childAgain : List Label :=
  let init := Label.proc 0 (.go true)
  let child := Label.proc 1 (.go true)
  [.sched 0, init, .proc 0 .fork, init, init, init, init, .sched 1, .proc 0 .yield, .sched 1,
    .sched 0, .sched 0, init, child, .proc 1 .yield, .sched 1, .sched 1, .sched 1]

theorem round_robin_childAgain :
    (events next boot childAgain).filterMap dispatched = [(0, 0), (1, 1), (0, 0), (1, 1)] ∧
      NotBypassed (events next boot childAgain) 1 0 := by
  have hp : Path next boot _ (final next boot childAgain) := path_final rfl
  exact ⟨by decide, round_robin hp (by decide) (by decide)⟩

/-- init forks a child and yields twice on CPU 0, which runs nothing but init. -/
def initAgain : List Label :=
  let init := Label.proc 0 (.go true)
  [.sched 0, init, .proc 0 .fork, init, init, init, init, .proc 0 .yield, .sched 0, .sched 0,
    init, .proc 0 .yield, .sched 0, .sched 0]

theorem initAgain_bypasses :
    Path next boot (events next boot initAgain) (final next boot initAgain) ∧
      (∀ e ∈ events next boot initAgain, e.post.mode = .roundRobin) ∧
      ¬ NotBypassed (events next boot initAgain) 0 1 := by
  refine ⟨path_final rfl, by decide, fun h => ?_⟩
  obtain ⟨e, he, d, hd⟩ := h ((events next boot initAgain).take 9)
    (((events next boot initAgain).drop 10).take 3) [] _ _ 0 rfl rfl rfl rfl
  have hno : ∀ e ∈ ((events next boot initAgain).drop 10).take 3,
      (dispatched e).map Prod.snd ≠ some 1 := by decide
  exact hno e he (by rw [hd]; rfl)

end Xv6.Sections
