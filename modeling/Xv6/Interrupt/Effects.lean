import Xv6.Interrupt.InvariantSteps

namespace Xv6.Interrupt

open Xv6.Framework Xv6.Process

variable {w w' : World} {c d : Nat} {l : Lock} {op o : Op} {k : List Op} {r : Context}
  {pc : SchedPc} {p : ProcId} {a : Label}

def Op.call : Op → Option Nat
  | .sweep n _ _ | .touch n _ _ => some n
  | _ => none

/-- The statements of sweeps that op puts in front of what is left to execute, where calls is the
number of the next call and me is myproc(). -/
def Op.Adds (calls : Nat) (me : Option ProcId) : Op → Op → Prop
  | .start v, o => o = .sweep calls v 0
  | .sweep n v i, o => ∃ h : i < NPROC,
      if v.skips me ⟨i, h⟩ then o = .sweep n v (i + 1) else o = .touch n v ⟨i, h⟩
  | .touch n v p, o => o = .sweep n v (p + 1)
  | _, _ => False

/-- The process whose state or channel a statement writes. -/
def Op.target : Op → Option ProcId
  | .setState p _ | .setChan p _ | .touch _ _ p | .spawn p | .freeproc p => some p
  | _ => none

def Op.starts : Op → Bool
  | .start _ => true
  | _ => false

def SameSleep (w w' : World) (p : ProcId) : Prop :=
  (w'.procs p).state = (w.procs p).state ∧ (w'.procs p).chan = (w.procs p).chan

/-- What CPU c does when it executes op before k. -/
structure Effect (w : World) (c : Nat) (op : Op) (k : List Op) (w' : World) : Prop where
  cpu : ∃ x, w'.cpu = Function.update w.cpu c x ∧
    (op = .sched ∧ x.run = (w.cpu c).context ∨ x.run.thread = (w.cpu c).run.thread ∧
      ∀ o ∈ x.run.ops, o ∈ k ∨ o.call = none ∨ op.Adds w.calls (w.cpu c).proc o)
  context : ∀ p, ∀ o ∈ (w'.context p).ops, o ∈ (w.context p).ops ∨ o ∈ k ∨ o.call = none
  procs : ∀ p, op.target ≠ some p → SameSleep w w' p
  calls : w'.calls = w.calls + if op.starts then 1 else 0

/-- What CPU c does when it executes scheduler() at pc. -/
structure SchedEffect (w : World) (c : Nat) (pc : SchedPc) (w' : World) : Prop where
  cpu : ∃ x, w'.cpu = Function.update w.cpu c x ∧
    ((∃ p, pc = .swtch p ∧ x.run = w.context p) ∨
      ∃ pc', x.run = ⟨.sched pc', []⟩ ∧ (pc' = .clearProc → ∃ p, pc = .back p ∧
        x.intr = (decide ((w.cpu c).noff = 1) && (w.cpu c).intena)))
  context : w'.context = w.context
  procs : ∀ p, pc ≠ .setRunning p → SameSleep w w' p
  calls : w'.calls = w.calls

theorem sweepNext_mem {me : Option ProcId} {n i calls : Nat} {v : Sweep}
    (h : o ∈ sweepNext me n v i k) : o ∈ k ∨ o.call = none ∨ Op.Adds calls me (.sweep n v i) o := by
  unfold sweepNext at h
  split at h
  case isTrue hi =>
    split at h
    case isTrue hs =>
      refine (List.mem_cons.mp h).symm.imp_right fun ho => .inr ⟨hi, ?_⟩
      rwa [if_pos hs]
    case isFalse hs =>
      rcases List.mem_cons.mp h with rfl | h
      · exact .inr (.inl rfl)
      refine (List.mem_cons.mp h).symm.imp_right fun ho => .inr ⟨hi, ?_⟩
      rwa [if_neg hs]
  case isFalse => exact .inl h

theorem setProc_sameSleep {x : Proc} {q : ProcId} (h : p = q → x.state = (w.procs q).state ∧
    x.chan = (w.procs q).chan) : SameSleep w (w.setProc q x) p := by
  by_cases hpq : p = q
  · subst hpq
    simpa [SameSleep] using h rfl
  · simp [SameSleep, hpq]

/-- CPU c goes on at ops after a change of the process table. -/
theorem goto_effect {w₁ : World} {ops : List Op} (hcpu : w₁.cpu = w.cpu)
    (hctx : ∀ p, ∀ o ∈ (w₁.context p).ops, o ∈ (w.context p).ops ∨ o ∈ k ∨ o.call = none)
    (hprocs : ∀ p, op.target ≠ some p → SameSleep w w₁ p)
    (hcalls : w₁.calls = w.calls + if op.starts then 1 else 0)
    (hops : ∀ o ∈ ops, o ∈ k ∨ o.call = none ∨ op.Adds w.calls (w.cpu c).proc o) :
    Effect w c op k (w₁.goto c ops) where
  cpu := by
    refine ⟨(w.cpu c).goto ops, ?_, .inr ⟨rfl, hops⟩⟩
    rw [goto_cpu, hcpu]
  context := hctx
  procs := hprocs
  calls := hcalls

theorem move_effect {ops : List Op} (hs : op.starts = false)
    (hops : ∀ o ∈ ops, o ∈ k ∨ o.call = none ∨ op.Adds w.calls (w.cpu c).proc o) :
    Effect w c op k (w.goto c ops) :=
  goto_effect rfl (fun _ _ ho => .inl ho) (fun _ _ => ⟨rfl, rfl⟩) (by simp [hs]) hops

theorem write_effect {x : Proc} {ops : List Op} (ht : op.target = some p)
    (hs : op.starts = false)
    (hops : ∀ o ∈ ops, o ∈ k ∨ o.call = none ∨ op.Adds w.calls (w.cpu c).proc o) :
    Effect w c op k ((w.setProc p x).goto c ops) := by
  refine goto_effect rfl (fun _ _ ho => .inl ho) (fun q hq => ?_) (by simp [hs]) hops
  exact setProc_sameSleep fun hqp => absurd (hqp ▸ ht) hq

theorem execOp_effect (he : execOp w c op k = some w') : Effect w c op k w' := by
  unfold execOp at he
  cases op with
  | acquire l =>
    obtain ⟨-, rfl⟩ := acquireAt_eq_some he
    exact ⟨⟨_, rfl, .inr ⟨rfl, fun o ho => .inl ho⟩⟩, fun _ _ ho => .inl ho,
      fun _ _ => ⟨rfl, rfl⟩, rfl⟩
  | release l =>
    obtain ⟨-, rfl⟩ := releaseAt_eq_some he
    exact ⟨⟨_, rfl, .inr ⟨rfl, fun o ho => .inl ho⟩⟩, fun _ _ ho => .inl ho,
      fun _ _ => ⟨rfl, rfl⟩, rfl⟩
  | sched =>
    obtain ⟨q, -, rfl⟩ := schedAt_eq_some he
    refine ⟨⟨_, rfl, .inl ⟨rfl, rfl⟩⟩, fun p o ho => ?_, fun _ _ => ⟨rfl, rfl⟩, rfl⟩
    rw [World.setCpu_context, setContext_context] at ho
    split at ho
    · exact .inr ((List.mem_cons.mp ho).symm.imp_right fun h => by rw [h]; rfl)
    · exact .inl ho
  | restore b | iret =>
    cases he
    exact ⟨⟨_, rfl, .inr ⟨rfl, fun o ho => .inl ho⟩⟩, fun _ _ ho => .inl ho,
      fun _ _ => ⟨rfl, rfl⟩, rfl⟩
  | tick =>
    cases he
    exact ⟨⟨_, rfl, .inr ⟨rfl, fun o ho => .inl ho⟩⟩, fun _ _ ho => .inl ho,
      fun _ _ => ⟨rfl, rfl⟩, rfl⟩
  | setState q s | setChan q s =>
    cases he
    exact write_effect rfl rfl fun o ho => .inl ho
  | start v =>
    cases he
    exact ⟨⟨_, rfl, .inr ⟨rfl, fun o ho => (List.mem_cons.mp ho).symm.imp_right .inr⟩⟩,
      fun _ _ ho => .inl ho, fun _ _ => ⟨rfl, rfl⟩, rfl⟩
  | sweep n v i =>
    cases he
    exact move_effect rfl fun o ho => sweepNext_mem ho
  | touch n v q =>
    cases he
    refine write_effect rfl rfl fun o ho => ?_
    rcases List.mem_cons.mp ho with rfl | ho
    · exact .inr (.inl rfl)
    split at ho
    · exact .inl ho
    · exact (List.mem_cons.mp ho).symm.imp_right .inr
  | reparent q i =>
    cases he
    unfold reparentAt
    split
    · split
      · refine goto_effect rfl (fun _ _ ho => .inl ho) (fun p _ => ?_) rfl ?_
        · exact setProc_sameSleep fun _ => ⟨rfl, rfl⟩
        · simp +contextual [Op.call]
      · exact move_effect rfl (by simp +contextual [Op.call])
    · exact move_effect rfl fun o ho => .inl ho
  | wakeupParent q =>
    simp only at he
    split at he <;> cases he
    · exact move_effect rfl (by simp +contextual [Op.call])
    · exact move_effect rfl fun o ho => .inl ho
  | spawn q =>
    cases he
    unfold spawnAt
    split
    · refine goto_effect rfl (fun p o ho => ?_) (fun p hp => ?_) rfl fun o ho => .inl ho
      · rw [setContext_context] at ho
        split at ho
        · exact .inr (.inr (by simp_all [forkret, Op.call]))
        · exact .inl ho
      · exact setProc_sameSleep fun hpq => absurd (congrArg some hpq.symm) hp
    · exact move_effect rfl fun o ho => .inl ho
  | freeproc q =>
    cases he
    unfold freeAt
    split
    · exact write_effect rfl rfl fun o ho => .inl ho
    · exact move_effect rfl fun o ho => .inl ho
  | yieldIf =>
    simp only at he
    split at he <;> cases he
    · exact move_effect rfl (by simp +contextual [yield, Op.call])
    · exact move_effect rfl fun o ho => .inl ho
  | panic => cases he

theorem chooseNext_ne_clearProc (m : SchedMode) (p : ProcId) (chosen : Option ProcId) :
    chooseNext w m p chosen ≠ .clearProc := by
  unfold chooseNext
  split
  · split
    · nofun
    · cases chosen <;> nofun
  · nofun

theorem resume_effect {pc' : SchedPc} (h : pc' ≠ .clearProc) :
    SchedEffect w c pc (w.resume c pc') :=
  ⟨⟨_, rfl, .inr ⟨pc', rfl, fun hc => absurd hc h⟩⟩, rfl, fun _ _ => ⟨rfl, rfl⟩, rfl⟩

theorem schedule_effect (he : schedule w c pc = some w') : SchedEffect w c pc w' := by
  unfold schedule at he
  cases pc with
  | loop =>
    cases he
    exact ⟨⟨_, rfl, .inr ⟨_, rfl, nofun⟩⟩, rfl, fun _ _ => ⟨rfl, rfl⟩, rfl⟩
  | scan m i chosen =>
    simp only at he
    split at he
    · obtain ⟨-, rfl⟩ := acquireAt_eq_some he
      exact ⟨⟨_, rfl, .inr ⟨_, rfl, nofun⟩⟩, rfl, fun _ _ => ⟨rfl, rfl⟩, rfl⟩
    · split at he <;> cases he
      · exact resume_effect nofun
      · exact resume_effect nofun
  | choose m p chosen =>
    cases he
    exact resume_effect (chooseNext_ne_clearProc m p chosen)
  | unlock q m i chosen =>
    obtain ⟨-, rfl⟩ := releaseAt_eq_some he
    exact ⟨⟨_, rfl, .inr ⟨_, rfl, nofun⟩⟩, rfl, fun _ _ => ⟨rfl, rfl⟩, rfl⟩
  | setRunning q =>
    cases he
    refine ⟨⟨_, rfl, .inr ⟨_, rfl, nofun⟩⟩, rfl, fun p hp => ?_, rfl⟩
    exact setProc_sameSleep fun hpq => absurd (congrArg SchedPc.setRunning hpq.symm) hp
  | setProc p | clearProc =>
    cases he
    exact ⟨⟨_, rfl, .inr ⟨_, rfl, nofun⟩⟩, rfl, fun _ _ => ⟨rfl, rfl⟩, rfl⟩
  | swtch p =>
    cases he
    exact ⟨⟨_, rfl, .inl ⟨p, rfl, rfl⟩⟩, rfl, fun _ _ => ⟨rfl, rfl⟩, rfl⟩
  | back p =>
    obtain ⟨-, rfl⟩ := releaseAt_eq_some he
    exact ⟨⟨_, rfl, .inr ⟨_, rfl, fun _ => ⟨p, rfl, rfl⟩⟩⟩, rfl, fun _ _ => ⟨rfl, rfl⟩, rfl⟩

/-- What happens outside the execution of a statement: an interrupt or a call puts statements that
belong to no sweep in front of those of one CPU. -/
structure OuterEffect (w w' : World) : Prop where
  cpu : ∀ c, (w'.cpu c).run.thread = (w.cpu c).run.thread ∧
    ((w'.cpu c).run.thread = .sched .clearProc → (w'.cpu c).intr = true → (w.cpu c).intr = true) ∧
    ∀ o ∈ (w'.cpu c).run.ops, o ∈ (w.cpu c).run.ops ∨ o.call = none
  context : w'.context = w.context
  procs : ∀ p, SameSleep w w' p
  calls : w'.calls = w.calls

inductive Step (w : World) : Label → World → Prop
  | statement {c : Nat} {t : Thread} {op : Op} {k : List Op} {w' : World} :
      (w.cpu c).run = ⟨t, op :: k⟩ → execOp w c op k = some w' → Effect w c op k w' →
      Step w (.exec c) w'
  | scheduler {c : Nat} {pc : SchedPc} {w' : World} :
      (w.cpu c).run = ⟨.sched pc, []⟩ → SchedEffect w c pc w' → Step w (.exec c) w'
  | outer {a : Label} {w' : World} : (∀ c, a ≠ .exec c) → OuterEffect w w' → Step w a w'

theorem kerneltrap_call {irq : Irq} (h : o ∈ kerneltrap c irq) : o.call = none := by
  cases irq with
  | timer =>
    simp only [kerneltrap, clockintr] at h
    split at h <;> (grind [Op.call])
  | device n ch =>
    simp only [kerneltrap] at h
    grind [Op.call]

theorem body_call {b : Call} (h : o ∈ b.body p) : o.call = none := by
  cases b <;> simp [Call.body, yield, sleep, exit] at h <;> grind [Op.call]

theorem setCpu_effect {x : Cpu} (ht : x.run.thread = (w.cpu c).run.thread)
    (hi : x.run.thread = .sched .clearProc → x.intr = true → (w.cpu c).intr = true)
    (ho : ∀ o ∈ x.run.ops, o ∈ (w.cpu c).run.ops ∨ o.call = none) : OuterEffect w (w.setCpu c x) where
  cpu d := by
    rw [setCpu_cpu]
    split
    · subst d
      exact ⟨ht, hi, ho⟩
    · exact ⟨rfl, fun _ h => h, fun o ho => .inl ho⟩
  context := rfl
  procs _ := ⟨rfl, rfl⟩
  calls := rfl

theorem next_cases (hn : next w a = some w') : Step w a w' := by
  cases a with
  | exec c =>
    simp only [next, exec] at hn
    split at hn
    case h_1 t op k hr => exact .statement hr hn (execOp_effect hn)
    case h_2 pc hr => exact .scheduler hr (schedule_effect hn)
    case h_3 => cases hn
  | interrupt c irq =>
    simp only [next] at hn
    split at hn
    · cases hn
      refine .outer (by simp) (setCpu_effect rfl (by simp) fun o ho => ?_)
      exact (List.mem_append.mp ho).symm.imp_right kerneltrap_call
    · cases hn
  | call c b =>
    simp only [next] at hn
    split at hn
    · split at hn
      · cases hn
        exact .outer (by simp) (setCpu_effect rfl (fun _ h => h) fun o ho => .inr (body_call ho))
      · cases hn
    · cases hn
  | setIntr c b =>
    simp only [next] at hn
    split at hn
    case h_1 p hr =>
      cases hn
      refine .outer (by simp) (setCpu_effect rfl (fun ht => ?_) fun o ho => .inl ho)
      rw [hr] at ht
      cases ht
    case h_2 => cases hn
  | setMode m =>
    cases hn
    exact .outer (by simp) ⟨fun _ => ⟨rfl, fun _ h => h, fun o ho => .inl ho⟩, rfl,
      fun _ => ⟨rfl, rfl⟩, rfl⟩
  | setPriority q priority =>
    simp only [next] at hn
    split at hn
    · cases hn
      exact .outer (by simp) ⟨fun _ => ⟨rfl, fun _ h => h, fun o ho => .inl ho⟩, rfl,
        fun p => setProc_sameSleep fun _ => ⟨rfl, rfl⟩, rfl⟩
    · cases hn

end Xv6.Interrupt
