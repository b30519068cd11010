import Xv6.Process.Slot
import Xv6.Framework.Transition

set_option maxRecDepth 8192

namespace Xv6.Process.WaitStat

open Xv6.Framework

structure Perf where
  ctime : Nat
  completetime : Nat
  rtime : Nat
  turnaroundTime : Nat
  waitingTime : Nat

def Perf.of (p : Proc) : Perf :=
  ⟨p.ctime, p.completetime, p.rtime, p.turnaroundTime, p.waitingTime⟩

inductive Owner
  | me
  | other
  deriving DecidableEq

/-- Where the caller is in wait_stat_internal and, between sleepLock and sleepRelock, in sleep. -/
inductive Pc
  | loop
  | scan (i : Nat) (havekids : Bool)
  | lockChild (p : ProcId)
  | readChild (p : ProcId)
  | unlockZombie (p : ProcId) (pid : Int)
  | freeZombie (p : ProcId) (pid : Int)
  | unlockChild (p : ProcId)
  | check (havekids : Bool)
  | unlockWait (ret : Int)
  | sleepLock
  | sleepUnlock
  | sleepSched
  | asleep
  | sleepWake
  | sleepRelock
  | returned (ret : Int)
  | panic (msg : String)
  deriving DecidableEq

structure World where
  procs : ProcId → Proc
  locks : Lock → Option Owner
  ticks : Nat
  pstats : Perf
  status : Int
  pc : Pc

/-- acquire(l) and then pc; it spins while another CPU holds the lock. -/
def acquire (w : World) (l : Lock) (pc : Pc) : Option World :=
  match w.locks l with
  | some .me => some { w with pc := .panic "acquire" }
  | some .other => none
  | none => some { w with locks := update w.locks l (some .me), pc := pc }

def release (w : World) (l : Lock) (pc : Pc) : World :=
  if w.locks l = some .me then { w with locks := update w.locks l none, pc := pc }
  else { w with pc := .panic "release" }

def World.set (w : World) (i : ProcId) (p : Proc) : World :=
  { w with procs := update w.procs i p }

/-- One step of the calling process pp. swtch gives pp->lock to the scheduler, which frees it
and holds it again when pp is resumed. -/
def step (pp : ProcId) (w : World) : Option World :=
  match w.pc with
  | .loop => acquire w .wait (.scan 0 false)
  | .scan i havekids =>
    if h : i < NPROC then
      if (w.procs ⟨i, h⟩).parent = some pp then some { w with pc := .lockChild ⟨i, h⟩ }
      else some { w with pc := .scan (i + 1) havekids }
    else some { w with pc := .check havekids }
  | .lockChild p => acquire w (.proc p) (.readChild p)
  | .readChild p =>
    if (w.procs p).state = .zombie then
      some { w with
        pstats := Perf.of (w.procs p)
        status := (w.procs p).xstate
        pc := .unlockZombie p (w.procs p).pid }
    else some { w with pc := .unlockChild p }
  | .unlockZombie p pid => some (release w (.proc p) (.freeZombie p pid))
  | .freeZombie p pid =>
    some { w.set p ((w.procs p).freeproc w.ticks) with pc := .unlockWait pid }
  | .unlockChild p => some (release w (.proc p) (.scan (p.val + 1) true))
  | .check havekids =>
    if havekids = false ∨ (w.procs pp).killed ≠ 0 then some { w with pc := .unlockWait (-1) }
    else some { w with pc := .sleepLock }
  | .unlockWait ret => some (release w .wait (.returned ret))
  | .sleepLock => acquire w (.proc pp) .sleepUnlock
  | .sleepUnlock => some (release w .wait .sleepSched)
  | .sleepSched =>
    some (release (w.set pp { w.procs pp with chan := some (.proc pp), state := .sleeping })
      (.proc pp) .asleep)
  | .asleep =>
    if (w.procs pp).state = .runnable then
      acquire (w.set pp { w.procs pp with state := .running }) (.proc pp) .sleepWake
    else none
  | .sleepWake => some (release (w.set pp { w.procs pp with chan := none }) (.proc pp) .sleepRelock)
  | .sleepRelock => acquire w .wait .loop
  | .returned _ => none
  | .panic _ => none

/-- Everybody else may change the table and the locks that the caller does not hold. -/
inductive Label
  | caller
  | others (procs : ProcId → Proc) (locked : Lock → Bool) (ticks : Nat)

def othersStep (w : World) (procs : ProcId → Proc) (locked : Lock → Bool) (ticks : Nat) : World :=
  { w with
    procs := procs
    ticks := ticks
    locks := fun l =>
      if w.locks l = some .me then some .me else if locked l then some .other else none }

def next (pp : ProcId) (w : World) : Label → Option World
  | .caller => step pp w
  | .others procs locked ticks => some (othersStep w procs locked ticks)

/-- A call begins with no lock held by the caller. -/
def Entry (w : World) : Prop := w.pc = .loop ∧ ∀ l, w.locks l ≠ some .me

def Pc.acquires (pp : ProcId) : Pc → Option Lock
  | .loop | .sleepRelock => some .wait
  | .lockChild p => some (.proc p)
  | .sleepLock => some (.proc pp)
  | _ => none

/-- The caller acquires no lock it holds, frees a child only under its lock, and returns
without any lock. -/
structure Disciplined (pp : ProcId) (e : Event World Label) : Prop where
  acquire : ∀ l, e.pre.pc.acquires pp = some l → e.pre.locks l ≠ some .me
  free : ∀ p pid, e.pre.pc = .freeZombie p pid → e.pre.locks (.proc p) = some .me
  ret : ∀ r, e.post.pc = .returned r → ∀ l, e.post.locks l ≠ some .me

/-- The caller is not about to look at an exited child or to come back from sleep. -/
def World.smooth (w : World) : Bool :=
  match w.pc with
  | .readChild p => decide ((w.procs p).state ≠ .zombie)
  | .asleep => false
  | _ => true

def Smooth (e : Event World Label) : Prop :=
  match e.label with
  | .caller => e.pre.smooth = true
  | .others _ _ _ => True

instance (e : Event World Label) : Decidable (Smooth e) :=
  match e with
  | ⟨_, .caller, _⟩ => inferInstanceAs (Decidable (_ = true))
  | ⟨_, .others _ _ _, _⟩ => isTrue trivial

variable {pp : ProcId} {w w' : World} {l : Lock} {pc : Pc}

/-- The locks that the caller holds at a point of its first pass over the table, and at the
points that only an exited child or a wake-up leads to. -/
def Pc.holds (pp : ProcId) : Pc → Lock → Prop
  | .scan _ _, l | .lockChild _, l | .check _, l | .unlockWait _, l | .sleepLock, l
  | .freeZombie _ _, l => l = .wait
  | .readChild p, l | .unlockZombie p _, l | .unlockChild p, l => l = .wait ∨ l = .proc p
  | .sleepUnlock, l => l = .wait ∨ l = .proc pp
  | .sleepSched, l | .sleepWake, l => l = .proc pp
  | .loop, _ | .asleep, _ | .sleepRelock, _ | .returned _, _ | .panic _, _ => False

def Pc.first : Pc → Bool
  | .unlockZombie _ _ | .freeZombie _ _ | .sleepWake | .sleepRelock | .panic _ => false
  | _ => true

def Pc.late : Pc → Bool
  | .unlockZombie _ _ | .freeZombie _ _ | .sleepWake | .sleepRelock => true
  | _ => false

def Pc.ended : Pc → Bool
  | .returned _ | .panic _ => true
  | _ => false

def Holding (pp : ProcId) (w : World) : Prop := ∀ l, w.locks l = some .me ↔ w.pc.holds pp l

def First (pp : ProcId) (w : World) : Prop := w.pc.first = true ∧ Holding pp w

/-- An exited child has been met, or the caller has been woken: a violation is ahead. -/
def Doomed (pp : ProcId) (w : World) : Prop :=
  w.pc.late = true ∧ Holding pp w ∨ w.pc = .loop ∧ w.locks .wait = some .me

theorem acquire_of_not_held (hl : w.locks l ≠ some .me)
    (h : acquire w l pc = some w') :
    w' = { w with locks := update w.locks l (some .me), pc := pc } := by
  unfold acquire at h
  split at h
  case h_1 he => exact absurd he hl
  case h_2 => simp at h
  case h_3 => exact (Option.some.inj h).symm

theorem release_of_held (pc : Pc) (hl : w.locks l = some .me) :
    release w l pc = { w with locks := update w.locks l none, pc := pc } := by
  rw [release, if_pos hl]

theorem update_me (locks : Lock → Option Owner) (l x : Lock) :
    update locks l (some .me) x = some .me ↔ x = l ∨ locks x = some .me := by
  by_cases h : x = l
  · subst h
    simp
  · simp [h]

theorem update_none (locks : Lock → Option Owner) (l x : Lock) :
    update locks l none x = some .me ↔ x ≠ l ∧ locks x = some .me := by
  by_cases h : x = l
  · subst h
    simp
  · simp [h]

theorem holding_acquire (hh : Holding pp w) (hl : ¬ w.pc.holds pp l)
    (h : acquire w l pc = some w') (hx : ∀ x, pc.holds pp x ↔ x = l ∨ w.pc.holds pp x) :
    w'.pc = pc ∧ Holding pp w' := by
  obtain rfl := acquire_of_not_held (fun he => hl ((hh l).mp he)) h
  refine ⟨rfl, fun x => ?_⟩
  rw [update_me, hx, hh]

theorem holding_release (hh : Holding pp w) (hl : w.pc.holds pp l)
    (hx : ∀ x, pc.holds pp x ↔ x ≠ l ∧ w.pc.holds pp x) :
    (release w l pc).pc = pc ∧ Holding pp (release w l pc) := by
  rw [release_of_held pc ((hh l).mpr hl)]
  refine ⟨rfl, fun x => ?_⟩
  rw [update_none, hx, hh]

theorem first_acquire (hf : First pp w) (hl : ¬ w.pc.holds pp l)
    (h : acquire w l pc = some w') (hp : pc.first = true)
    (hx : ∀ x, pc.holds pp x ↔ x = l ∨ w.pc.holds pp x) : First pp w' := by
  obtain ⟨h1, h2⟩ := holding_acquire hf.2 hl h hx
  exact ⟨by rw [h1, hp], h2⟩

theorem first_release (hf : First pp w) (hl : w.pc.holds pp l)
    (hp : pc.first = true) (hx : ∀ x, pc.holds pp x ↔ x ≠ l ∧ w.pc.holds pp x) :
    First pp (release w l pc) := by
  obtain ⟨h1, h2⟩ := holding_release hf.2 hl hx
  exact ⟨by rw [h1, hp], h2⟩

theorem holding_move (hh : Holding pp w) (hl : w'.locks = w.locks) (hp : w'.pc = pc)
    (hx : ∀ x, pc.holds pp x ↔ w.pc.holds pp x) : Holding pp w' := by
  intro x
  rw [hl, hp, hx]
  exact hh x

theorem holding_others (h : Holding pp w) (procs : ProcId → Proc) (locked : Lock → Bool)
    (ticks : Nat) : Holding pp (othersStep w procs locked ticks) := by
  intro l
  refine Iff.trans ?_ (h l)
  by_cases hl : w.locks l = some .me
  · simp [othersStep]
  · cases hb : locked l <;> simp [othersStep]

/-- The first pass goes on. -/
theorem step_smooth (hf : First pp w) (hs : w.smooth = true) (h : step pp w = some w') :
    First pp w' := by
  have hfirst := hf.1
  cases hpc : w.pc with
  | loop =>
    simp only [step, hpc] at h
    exact first_acquire hf (by simp [hpc, Pc.holds]) h rfl (by simp [hpc, Pc.holds])
  | scan i hk =>
    simp only [step, hpc] at h
    split at h
    · split at h
      · cases h
        exact ⟨rfl, holding_move hf.2 rfl rfl (by simp [hpc, Pc.holds])⟩
      · cases h
        exact ⟨rfl, holding_move hf.2 rfl rfl (by simp [hpc, Pc.holds])⟩
    · cases h
      exact ⟨rfl, holding_move hf.2 rfl rfl (by simp [hpc, Pc.holds])⟩
  | lockChild p =>
    simp only [step, hpc] at h
    apply first_acquire hf (by simp [hpc, Pc.holds]) h rfl
    intro x
    simp only [hpc, Pc.holds]
    tauto
  | readChild p =>
    simp only [World.smooth, hpc, decide_eq_true_eq] at hs
    simp only [step, hpc, if_neg hs] at h
    cases h
    exact ⟨rfl, holding_move hf.2 rfl rfl (by simp [hpc, Pc.holds])⟩
  | unlockChild p =>
    simp only [step, hpc, Option.some.injEq] at h
    subst h
    apply first_release hf (by simp [hpc, Pc.holds]) rfl
    intro x
    simp only [Pc.holds]
    grind
  | check hk =>
    simp only [step, hpc] at h
    split at h
    · cases h
      exact ⟨rfl, holding_move hf.2 rfl rfl (by simp [hpc, Pc.holds])⟩
    · cases h
      exact ⟨rfl, holding_move hf.2 rfl rfl (by simp [hpc, Pc.holds])⟩
  | unlockWait r =>
    simp only [step, hpc, Option.some.injEq] at h
    subst h
    exact first_release hf (by simp [hpc, Pc.holds]) rfl (by simp [hpc, Pc.holds])
  | sleepLock =>
    simp only [step, hpc] at h
    apply first_acquire hf (by simp [hpc, Pc.holds]) h rfl
    intro x
    simp only [hpc, Pc.holds]
    tauto
  | sleepUnlock =>
    simp only [step, hpc, Option.some.injEq] at h
    subst h
    apply first_release hf (by simp [hpc, Pc.holds]) rfl
    intro x
    simp only [Pc.holds]
    grind
  | sleepSched =>
    simp only [step, hpc, Option.some.injEq] at h
    subst h
    apply first_release (w := w.set pp _) hf (by simp [World.set, hpc, Pc.holds]) rfl
    simp [World.set, hpc, Pc.holds]
  | asleep => simp [World.smooth, hpc] at hs
  | returned r => simp [step, hpc] at h
  | _ => simp [hpc, Pc.first] at hfirst

/-- The first pass meets an exited child, or ends with a wake-up. -/
theorem step_rough (hf : First pp w) (hs : w.smooth = false) (h : step pp w = some w') :
    Doomed pp w' := by
  cases hpc : w.pc with
  | readChild p =>
    have hz : (w.procs p).state = .zombie := by simpa [World.smooth, hpc] using hs
    simp only [step, hpc, if_pos hz] at h
    cases h
    exact .inl ⟨rfl, holding_move hf.2 rfl rfl (by simp [hpc, Pc.holds])⟩
  | asleep =>
    simp only [step, hpc] at h
    split at h
    case isTrue =>
      have hh : Holding pp (w.set pp { w.procs pp with state := .running }) := hf.2
      obtain ⟨h1, h2⟩ := holding_acquire hh (by simp [World.set, hpc, Pc.holds]) h
        (by simp [World.set, hpc, Pc.holds])
      exact .inl ⟨by rw [h1]; rfl, h2⟩
    case isFalse => simp at h
  | _ => simp [World.smooth, hpc] at hs

/-- In the first pass a step goes on with it, or meets an exited child or a wake-up. -/
theorem step_first (hf : First pp w) (h : step pp w = some w') :
    Smooth ⟨w, .caller, w'⟩ ∧ First pp w' ∨ ¬ Smooth ⟨w, .caller, w'⟩ ∧ Doomed pp w' := by
  cases hs : w.smooth with
  | true => exact .inl ⟨hs, step_smooth hf hs h⟩
  | false => exact .inr ⟨by simp [Smooth, hs], step_rough hf hs h⟩

/-- A doomed caller stays doomed until it breaks the discipline. -/
theorem step_doomed (hd : Doomed pp w) (h : step pp w = some w') :
    Doomed pp w' ∨ ¬ Disciplined pp ⟨w, .caller, w'⟩ := by
  rcases hd with ⟨hlate, hh⟩ | ⟨hpc, hl⟩
  · cases hpc : w.pc with
    | unlockZombie p pid =>
      left
      simp only [step, hpc, Option.some.injEq] at h
      subst h
      obtain ⟨h1, h2⟩ := holding_release (l := .proc p) hh (by simp [hpc, Pc.holds])
        (show ∀ x, (Pc.freeZombie p pid).holds pp x ↔ _ by
          intro x
          simp only [Pc.holds]
          grind)
      exact .inl ⟨by rw [h1]; rfl, h2⟩
    | freeZombie p pid =>
      right
      intro hdis
      have hheld := (hh (.proc p)).mp (hdis.free p pid hpc)
      simp [hpc, Pc.holds] at hheld
    | sleepWake =>
      left
      simp only [step, hpc, Option.some.injEq] at h
      subst h
      have hh' : Holding pp (w.set pp { w.procs pp with chan := none }) := hh
      obtain ⟨h1, h2⟩ := holding_release (l := .proc pp) hh' (by simp [World.set, hpc, Pc.holds])
        (show ∀ x, Pc.sleepRelock.holds pp x ↔ _ by simp [World.set, hpc, Pc.holds])
      exact .inl ⟨by rw [h1]; rfl, h2⟩
    | sleepRelock =>
      left
      simp only [step, hpc] at h
      have hl : w.locks .wait ≠ some .me := by
        intro he
        have hheld := (hh .wait).mp he
        simp [hpc, Pc.holds] at hheld
      rw [acquire_of_not_held hl h]
      exact .inr ⟨rfl, by simp⟩
    | _ => simp [hpc, Pc.late] at hlate
  · right
    intro hdis
    exact hdis.acquire .wait (by simp [hpc, Pc.acquires]) hl

theorem disciplined_first {a : Label} (hf : First pp w) (hf' : First pp w') :
    Disciplined pp ⟨w, a, w'⟩ := by
  constructor
  · intro l hl he
    have hheld := (hf.2 l).mp he
    cases hpc : w.pc <;> simp [hpc, Pc.acquires] at hl <;> subst hl <;>
      simp [hpc, Pc.holds] at hheld
  · intro p pid hpc
    have hfirst := hf.1
    rw [show w.pc = _ from hpc] at hfirst
    cases hfirst
  · intro r hr l he
    have hheld := (hf'.2 l).mp he
    rw [show w'.pc = _ from hr] at hheld
    exact hheld

theorem first_others (hf : First pp w) (procs : ProcId → Proc) (locked : Lock → Bool)
    (ticks : Nat) : First pp (othersStep w procs locked ticks) :=
  ⟨hf.1, holding_others hf.2 procs locked ticks⟩

theorem doomed_others (hd : Doomed pp w) (procs : ProcId → Proc) (locked : Lock → Bool)
    (ticks : Nat) : Doomed pp (othersStep w procs locked ticks) := by
  rcases hd with ⟨hlate, hh⟩ | ⟨hpc, hl⟩
  · exact .inl ⟨hlate, holding_others hh procs locked ticks⟩
  · exact .inr ⟨hpc, by simp [othersStep, hl]⟩

/-- A run is smooth and disciplined in its first pass, or it is not smooth and is doomed or has
broken the discipline. -/
theorem run_cases {w₀ : World} {tr : List (Event World Label)} (h₀ : Entry w₀)
    (hp : Path (next pp) w₀ tr w) :
    (∀ e ∈ tr, Smooth e ∧ Disciplined pp e) ∧ First pp w ∨
      (¬ ∀ e ∈ tr, Smooth e) ∧ (Doomed pp w ∨ ¬ ∀ e ∈ tr, Disciplined pp e) := by
  induction hp with
  | nil =>
    left
    refine ⟨by simp, ?_, ?_⟩
    · rw [h₀.1]
      rfl
    · intro l
      simp [h₀.1, h₀.2 l, Pc.holds]
  | @snoc w w' tr a _ hn ih =>
    rcases ih with ⟨hall, hf⟩ | ⟨hns, hd⟩
    · cases a with
      | others procs locked ticks =>
        left
        cases hn
        have hf' := first_others hf procs locked ticks
        refine ⟨fun e he => ?_, hf'⟩
        rcases List.mem_append.mp he with he | he
        · exact hall e he
        · rw [List.mem_singleton.mp he]
          exact ⟨trivial, disciplined_first hf hf'⟩
      | caller =>
        rcases step_first hf hn with ⟨hs, hf'⟩ | ⟨hs, hd⟩
        · left
          refine ⟨fun e he => ?_, hf'⟩
          rcases List.mem_append.mp he with he | he
          · exact hall e he
          · rw [List.mem_singleton.mp he]
            exact ⟨hs, disciplined_first hf hf'⟩
        · right
          exact ⟨fun h => hs (h _ (by simp)), .inl hd⟩
    · right
      refine ⟨fun h => hns fun e he => h e (by simp [he]), ?_⟩
      rcases hd with hd | hd
      · cases a with
        | others procs locked ticks =>
          cases hn
          exact .inl (doomed_others hd procs locked ticks)
        | caller =>
          rcases step_doomed hd hn with hd' | hdis
          · exact .inl hd'
          · exact .inr fun h => hdis (h _ (by simp))
      · exact .inr fun h => hd fun e he => h e (by simp [he])

/-- Every smooth run is disciplined, and a call that has ended was disciplined only if it was
smooth. -/
theorem wait_stat_discipline {w₀ : World} {tr : List (Event World Label)} (h₀ : Entry w₀)
    (hp : Path (next pp) w₀ tr w) :
    ((∀ e ∈ tr, Smooth e) → ∀ e ∈ tr, Disciplined pp e) ∧
      (w.pc.ended = true → ((∀ e ∈ tr, Disciplined pp e) ↔ ∀ e ∈ tr, Smooth e)) := by
  rcases run_cases h₀ hp with ⟨hall, _⟩ | ⟨hns, hd⟩
  · have hdis : ∀ e ∈ tr, Disciplined pp e := fun e he => (hall e he).2
    have hsm : ∀ e ∈ tr, Smooth e := fun e he => (hall e he).1
    exact ⟨fun _ => hdis, fun _ => ⟨fun _ => hsm, fun _ => hdis⟩⟩
  · refine ⟨fun h => absurd h hns, fun hend => ⟨fun h => ?_, fun h => absurd h hns⟩⟩
    rcases hd with (⟨hlate, _⟩ | ⟨hpc, _⟩) | hdis
    · cases hpc : w.pc <;> simp [hpc, Pc.late, Pc.ended] at hlate hend
    · simp [hpc, Pc.ended] at hend
    · exact absurd h hdis

/-- A call by the process in slot 1 on the given table. -/
def call (procs : ProcId → Proc) : World :=
  ⟨procs, fun _ => none, 0, Perf.of Proc.zero, 0, .loop⟩

/-- Slot 2 is a child of slot 1, in the given states. -/
def family (parent child : ProcState) : ProcId → Proc :=
  update (update (fun _ => Proc.zero) 1
    { Proc.zero with pid := 3, state := parent, chan := some (.proc 1) }) 2
    { Proc.zero with pid := 4, state := child, parent := some 1 }

/-- One pass over the table, where the child is not a ZOMBIE, and to sleep. -/
def toSleep : List Label := List.replicate 73 .caller

theorem wait_stat_discipline_sleeps :
    (final (next 1) (call (family .running .running)) toSleep).pc = .asleep ∧
      ∀ e ∈ events (next 1) (call (family .running .running)) toSleep, Disciplined 1 e := by
  have hp : Path (next 1) (call (family .running .running))
      (events (next 1) (call (family .running .running)) toSleep) _ := path_final rfl
  exact ⟨rfl, (wait_stat_discipline ⟨rfl, by simp [call]⟩ hp).1 (by decide)⟩

/-- The child exits while the caller sleeps, and the caller comes back to its loop. -/
def childExits : List Label :=
  toSleep ++ [.others (family .runnable .zombie) (fun _ => false) 1] ++
    List.replicate 4 .caller

theorem childExits_not_disciplined :
    ¬ ∀ (pp : ProcId) (w₀ w : World) (tr : List (Event World Label)), Entry w₀ →
      Path (next pp) w₀ tr w → ∀ e ∈ tr, Disciplined pp e := by
  intro h
  have hmem := List.getElem_mem
    (l := events (next 1) (call (family .running .running)) childExits) (n := 77) (by decide)
  have hd := h 1 (call (family .running .running)) _ _ ⟨rfl, by simp [call]⟩ (path_final rfl) _ hmem
  exact hd.acquire .wait rfl rfl

/-! ### The two calls where a child has exited -/

def zombieChild (procs : ProcId → Proc) (pp : ProcId) : Option ProcId :=
  (List.finRange NPROC).find? fun i => (procs i).parent = some pp ∧ (procs i).state = .zombie

/-- What a call returns, the table it leaves, and what it copied out to the user. -/
structure Result where
  ret : Int
  procs : ProcId → Proc
  status : Option Int
  perf : Option Perf

section Calls

/- `fits a n` is whether copyout can write n bytes to the user address a. -/
variable (fits : UInt64 → Nat → Bool) (procs : ProcId → Proc) (ticks : Nat) (i : ProcId)

/-- wait(addr) once it has found the zombie i. -/
def waitFound (addr : UInt64) : Result :=
  if addr ≠ 0 ∧ ¬ fits addr 4 then ⟨-1, procs, none, none⟩
  else ⟨(procs i).pid, update procs i ((procs i).freeproc ticks),
    if addr ≠ 0 then some (procs i).xstate else none, none⟩

/-- sys_wait_stat once wait_stat_internal has found the zombie i, which it frees. -/
def waitStatFound (statusAddr perfAddr : UInt64) : Result :=
  let freed := update procs i ((procs i).freeproc ticks)
  if (procs i).pid < 0 then ⟨-1, freed, none, none⟩
  else if ¬ fits statusAddr 4 then ⟨-1, freed, none, none⟩
  else if ¬ fits perfAddr 40 then ⟨-1, freed, some (procs i).xstate, none⟩
  else ⟨(procs i).pid, freed, some (procs i).xstate, some (Perf.of (procs i))⟩

variable {fits procs i}

/-- A call of wait that cannot report leaves the table as it was. A call of wait_stat that comes to
report does so just if it can; and where both report, they report the same. -/
theorem failed_wait_keeps_iff {pp : ProcId} (hz : zombieChild procs pp = some i)
    (addr statusAddr perfAddr : UInt64) :
    (addr ≠ 0 ∧ ¬ fits addr 4 → (waitFound fits procs ticks i addr).ret = -1 ∧
        (waitFound fits procs ticks i addr).procs = procs) ∧
      (0 ≤ (procs i).pid →
        ((¬ (fits statusAddr 4 ∧ fits perfAddr 40) →
            zombieChild (waitStatFound fits procs ticks i statusAddr perfAddr).procs pp = some i ∧
            (waitStatFound fits procs ticks i statusAddr perfAddr).procs i = procs i) ↔
          fits statusAddr 4 ∧ fits perfAddr 40)) ∧
      ((addr = 0 ∨ fits addr 4) → 0 ≤ (procs i).pid → fits statusAddr 4 ∧ fits perfAddr 40 →
        (waitFound fits procs ticks i addr).ret = (procs i).pid ∧
        (waitStatFound fits procs ticks i statusAddr perfAddr).ret = (procs i).pid ∧
        (addr ≠ 0 → (waitFound fits procs ticks i addr).status = some (procs i).xstate) ∧
        (waitStatFound fits procs ticks i statusAddr perfAddr).status = some (procs i).xstate) := by
  have hzombie : (procs i).state = .zombie := by
    have := List.find?_some hz
    simp only [decide_eq_true_eq] at this
    exact this.2
  have hfreed : (waitStatFound fits procs ticks i statusAddr perfAddr).procs =
      update procs i ((procs i).freeproc ticks) := by
    unfold waitStatFound
    split_ifs <;> rfl
  refine ⟨fun h => ?_, fun hpid => ⟨fun h => ?_, fun h hn => absurd h hn⟩, fun h hpid hfit => ?_⟩
  · rw [waitFound, if_pos h]
    exact ⟨rfl, rfl⟩
  · by_contra hn
    have hkept := congrArg Proc.state (h hn).2
    rw [hfreed, Function.update_self, hzombie] at hkept
    cases hkept
  · have hwait : ¬ (addr ≠ 0 ∧ ¬ fits addr 4) := by tauto
    have hstat : waitStatFound fits procs ticks i statusAddr perfAddr = ⟨(procs i).pid,
        update procs i ((procs i).freeproc ticks), some (procs i).xstate,
        some (Perf.of (procs i))⟩ := by
      rw [waitStatFound, if_neg (by omega), if_neg (by simp [hfit.1]), if_neg (by simp [hfit.2])]
    rw [waitFound, if_neg hwait, hstat]
    exact ⟨rfl, rfl, fun ha => if_pos ha, rfl⟩

end Calls

/-- The child of slot 1 is reaped by both calls. -/
theorem wait_reports_child :
    (waitFound (fun _ _ => true) (family .running .zombie) 0 2 64).ret =
      (waitStatFound (fun _ _ => true) (family .running .zombie) 0 2 64 128).ret := by
  have h := (@failed_wait_keeps_iff (fun _ _ => true) (family .running .zombie) 0 2 1
    (by decide +kernel) 64 64 128).2.2 (.inr rfl) (by decide) ⟨rfl, rfl⟩
  rw [h.1, h.2.1]

/-- wait_stat with an address that cannot be written returns -1, and the child is gone. -/
theorem failed_wait_stat_frees :
    zombieChild (family .running .zombie) 1 = some 2 ∧
      (waitStatFound (fun _ _ => false) (family .running .zombie) 0 2 64 128).ret = -1 ∧
      zombieChild (waitStatFound (fun _ _ => false) (family .running .zombie) 0 2 64 128).procs 1 =
        none := by
  decide +kernel

end Xv6.Process.WaitStat
