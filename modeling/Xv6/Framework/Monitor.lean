import Xv6.Framework.Transition

namespace Xv6.Framework

namespace Monitor

/-- An instruction of code that shares data `δ` under one lock. `act` reads and writes the data,
`killed` asks whether the thread has been killed, in `user` the thread is out of the code and can
call it again, and `halt` is the end of it. The threads sleep on channels `κ`, and `L` are their
local states. -/
inductive Instr (δ κ L : Type)
  | acquire (l : L)
  | release (l : L)
  | act (f : δ → δ × L)
  | killed (f : Bool → L)
  | wakeup (c : κ) (l : L)
  | sleep (c : κ) (l : L)
  | user
  | halt

/-- Where a thread is. In `waking` it has still to look at the slots of a list. Sleep takes the
thread's own lock first (`dozing`), releases the lock of the data (`falling`), and gives up its own
when it is `asleep`; after that it is `woken`, and `returning` once it runs again and waits for the
lock of the data. -/
inductive Status (n : Nat) (κ L : Type)
  | run (l : L)
  | waking (c : κ) (qs : List (Fin n)) (l : L)
  | dozing (c : κ) (l : L)
  | falling (c : κ) (l : L)
  | asleep (c : κ) (l : L)
  | woken (l : L)
  | returning (l : L)

structure State (n : Nat) (δ κ L : Type) where
  data : δ
  lock : Option (Fin n)
  killed : Fin n → Bool
  status : Fin n → Status n κ L

/-- A thread calls the code, runs on, is killed, or is replaced by another. -/
inductive Label (n : Nat) (A : Type)
  | call (p : Fin n) (a : A)
  | step (p : Fin n)
  | kill (p : Fin n)
  | renew (p : Fin n)

variable {n : Nat} {δ κ L A : Type}

/-- The local state that the thread is in, or goes on with. -/
def Status.at : Status n κ L → L
  | .run l => l
  | .waking _ _ l => l
  | .dozing _ l => l
  | .falling _ l => l
  | .asleep _ l => l
  | .woken l => l
  | .returning l => l

/-- The thread has its own lock. -/
def Status.busy : Status n κ L → Bool
  | .dozing _ _ => true
  | .falling _ _ => true
  | _ => false

namespace State

def goto (s : State n δ κ L) (p : Fin n) (st : Status n κ L) : State n δ κ L :=
  { s with status := update s.status p st }

@[simp] theorem goto_self (s : State n δ κ L) (p : Fin n) (st : Status n κ L) :
    (s.goto p st).status p = st := by simp [goto]

theorem goto_ne {s : State n δ κ L} {p q : Fin n} {st : Status n κ L} (h : q ≠ p) :
    (s.goto p st).status q = s.status q := by simp [goto, h]

/-- One look of wakeup at a slot, for which it takes the lock of the thread there. -/
def wakeOne [DecidableEq κ] (s : State n δ κ L) (p : Fin n) (c : κ) (q : Fin n)
    (st : Status n κ L) : Option (State n δ κ L) :=
  if q = p then some (s.goto p st)
  else match s.status q with
    | .dozing _ _ => none
    | .falling _ _ => none
    | .asleep c' l => if c' = c then some ((s.goto q (.woken l)).goto p st) else some (s.goto p st)
    | _ => some (s.goto p st)

def stepRun (s : State n δ κ L) (p : Fin n) : Instr δ κ L → Option (State n δ κ L)
  | .acquire m =>
    if s.lock = none then some ({ s with lock := some p }.goto p (.run m)) else none
  | .release m =>
    if s.lock = some p then some ({ s with lock := none }.goto p (.run m)) else none
  | .act f => some ({ s with data := (f s.data).1 }.goto p (.run (f s.data).2))
  | .killed f => some (s.goto p (.run (f (s.killed p))))
  | .wakeup c m => some (s.goto p (.waking c (List.finRange n) m))
  | .sleep c m => some (s.goto p (.dozing c m))
  | .user => none
  | .halt => none

end State

variable (code : L → Instr δ κ L) (enter : L → A → Option L)

def next [DecidableEq κ] (s : State n δ κ L) : Label n A → Option (State n δ κ L)
  | .call p a => match s.status p with
    | .run l => match code l with
      | .user => (enter l a).map fun m => s.goto p (.run m)
      | _ => none
    | _ => none
  | .step p => match s.status p with
    | .run l => s.stepRun p (code l)
    | .waking _ [] m => some (s.goto p (.run m))
    | .waking c (q :: qs) m => s.wakeOne p c q (.waking c qs m)
    | .dozing c m =>
      if s.lock = some p then some ({ s with lock := none }.goto p (.falling c m)) else none
    | .falling c m => some (s.goto p (.asleep c m))
    | .asleep _ _ => none
    | .woken m => some (s.goto p (.returning m))
    | .returning m =>
      if s.lock = none then some ({ s with lock := some p }.goto p (.run m)) else none
  | .kill p => match s.status p with
    | .dozing _ _ => none
    | .falling _ _ => none
    | .asleep _ l =>
      some ({ s with killed := update s.killed p true }.goto p (.woken l))
    | _ => some { s with killed := update s.killed p true }
  | .renew p => match s.status p with
    | .run l => match code l with
      | .user => some { s with killed := update s.killed p false }
      | _ => none
    | _ => none

/-- The steps of the machine one by one. -/
inductive Step (s : State n δ κ L) : Label n A → State n δ κ L → Prop
  | call {p : Fin n} {a : A} {l m : L} : s.status p = .run l → code l = .user →
      enter l a = some m → Step s (.call p a) (s.goto p (.run m))
  | acquire {p : Fin n} {l m : L} : s.status p = .run l → code l = .acquire m → s.lock = none →
      Step s (.step p) ({ s with lock := some p }.goto p (.run m))
  | release {p : Fin n} {l m : L} : s.status p = .run l → code l = .release m →
      s.lock = some p → Step s (.step p) ({ s with lock := none }.goto p (.run m))
  | act {p : Fin n} {l : L} {f : δ → δ × L} : s.status p = .run l → code l = .act f →
      Step s (.step p) ({ s with data := (f s.data).1 }.goto p (.run (f s.data).2))
  | killed {p : Fin n} {l : L} {f : Bool → L} : s.status p = .run l → code l = .killed f →
      Step s (.step p) (s.goto p (.run (f (s.killed p))))
  | wakeup {p : Fin n} {l m : L} {c : κ} : s.status p = .run l → code l = .wakeup c m →
      Step s (.step p) (s.goto p (.waking c (List.finRange n) m))
  | woke {p : Fin n} {m : L} {c : κ} : s.status p = .waking c [] m →
      Step s (.step p) (s.goto p (.run m))
  | pass {p q : Fin n} {qs : List (Fin n)} {m : L} {c : κ} : s.status p = .waking c (q :: qs) m →
      (q = p ∨ ((s.status q).busy = false ∧ ∀ l, s.status q ≠ .asleep c l)) →
      Step s (.step p) (s.goto p (.waking c qs m))
  | wake {p q : Fin n} {qs : List (Fin n)} {l m : L} {c : κ} :
      s.status p = .waking c (q :: qs) m → q ≠ p → s.status q = .asleep c l →
      Step s (.step p) ((s.goto q (.woken l)).goto p (.waking c qs m))
  | sleep {p : Fin n} {l m : L} {c : κ} : s.status p = .run l → code l = .sleep c m →
      Step s (.step p) (s.goto p (.dozing c m))
  | doze {p : Fin n} {m : L} {c : κ} : s.status p = .dozing c m → s.lock = some p →
      Step s (.step p) ({ s with lock := none }.goto p (.falling c m))
  | fall {p : Fin n} {m : L} {c : κ} : s.status p = .falling c m →
      Step s (.step p) (s.goto p (.asleep c m))
  | rise {p : Fin n} {m : L} : s.status p = .woken m → Step s (.step p) (s.goto p (.returning m))
  | retake {p : Fin n} {m : L} : s.status p = .returning m → s.lock = none →
      Step s (.step p) ({ s with lock := some p }.goto p (.run m))
  | rouse {p : Fin n} {l : L} {c : κ} : s.status p = .asleep c l → Step s (.kill p)
      ({ s with killed := update s.killed p true }.goto p (.woken l))
  | mark {p : Fin n} (a : Label n A) (b : Bool) :
      Step s a { s with killed := update s.killed p b }

variable {code enter} {s t : State n δ κ L} {a : Label n A} {p : Fin n} {l : L}

theorem wakeOne_cases [DecidableEq κ] {p q : Fin n} {c : κ} {st : Status n κ L}
    (h : s.wakeOne p c q st = some t) :
    (t = s.goto p st ∧ (q = p ∨ ((s.status q).busy = false ∧
      ∀ l, s.status q ≠ .asleep c l))) ∨
    ∃ l, q ≠ p ∧ s.status q = .asleep c l ∧ t = (s.goto q (.woken l)).goto p st := by
  rw [State.wakeOne] at h
  split at h
  · rename_i hq
    exact .inl ⟨(Option.some.inj h).symm, .inl hq⟩
  rename_i hq
  split at h
  · cases h
  · cases h
  · rename_i c' l hs
    split at h
    · rename_i hc
      subst hc
      exact .inr ⟨l, hq, hs, (Option.some.inj h).symm⟩
    · rename_i hc
      refine .inl ⟨(Option.some.inj h).symm, .inr ⟨by rw [hs]; rfl, fun l' hl => hc ?_⟩⟩
      rw [hs] at hl
      exact (Status.asleep.inj hl).1
  · rename_i hd hf ha
    refine .inl ⟨(Option.some.inj h).symm, .inr ⟨?_, fun l hl => ha c l hl⟩⟩
    cases hs : s.status q with
    | dozing c l => exact absurd hs (hd c l)
    | falling c l => exact absurd hs (hf c l)
    | _ => rfl

theorem stepRun_cases (hl : s.status p = .run l)
    (h : s.stepRun p (code l) = some t) : Step code enter s (.step p) t := by
  cases hc : code l with
  | acquire m =>
    rw [hc, State.stepRun] at h
    split at h
    · rename_i hlock
      cases h
      exact .acquire hl hc hlock
    · cases h
  | release m =>
    rw [hc, State.stepRun] at h
    split at h
    · rename_i hlock
      cases h
      exact .release hl hc hlock
    · cases h
  | act f =>
    rw [hc] at h
    cases h
    exact .act hl hc
  | killed f =>
    rw [hc] at h
    cases h
    exact .killed hl hc
  | wakeup c m =>
    rw [hc] at h
    cases h
    exact .wakeup hl hc
  | sleep c m =>
    rw [hc] at h
    cases h
    exact .sleep hl hc
  | user =>
    rw [hc] at h
    cases h
  | halt =>
    rw [hc] at h
    cases h

theorem step_of_next [DecidableEq κ] (h : next code enter s a = some t) : Step code enter s a t := by
  cases a with
  | call p a =>
    simp only [next] at h
    split at h
    · rename_i l hl
      split at h
      · rename_i hc
        obtain ⟨m, hm, rfl⟩ := Option.map_eq_some_iff.mp h
        exact .call hl hc hm
      · cases h
    · cases h
  | step p =>
    simp only [next] at h
    split at h
    · rename_i l hl
      exact stepRun_cases hl h
    · rename_i hl
      cases h
      exact .woke hl
    · rename_i hl
      rcases wakeOne_cases h with ⟨rfl, hq⟩ | ⟨l, hq, hs, rfl⟩
      · exact .pass hl hq
      · exact .wake hl hq hs
    · rename_i hl
      split at h
      · rename_i hlock
        cases h
        exact .doze hl hlock
      · cases h
    · rename_i hl
      cases h
      exact .fall hl
    · cases h
    · rename_i hl
      cases h
      exact .rise hl
    · rename_i hl
      split at h
      · rename_i hlock
        cases h
        exact .retake hl hlock
      · cases h
  | kill p =>
    simp only [next] at h
    split at h
    · cases h
    · cases h
    · rename_i hl
      cases h
      exact .rouse hl
    · cases h
      exact .mark _ _
  | renew p =>
    simp only [next] at h
    split at h
    · split at h
      · cases h
        exact .mark _ _
      · cases h
    · cases h

/-- The threads that have the lock of the data. -/
def Status.locks (holds : L → Bool) : Status n κ L → Bool
  | .run l => holds l
  | .waking _ _ _ => true
  | .dozing _ _ => true
  | _ => false

/-- The code takes and gives up the lock in pairs; `holds` are the local states that have it. -/
def Paired (code : L → Instr δ κ L) (enter : L → A → Option L) (holds : L → Bool) : Prop :=
  ∀ l, match code l with
    | .acquire m => holds m = true
    | .release m => holds m = false
    | .act f => ∀ d, holds (f d).2 = holds l
    | .killed f => ∀ b, holds (f b) = holds l
    | .wakeup _ m => holds l = true ∧ holds m = true
    | .sleep _ m => holds l = true ∧ holds m = true
    | .user => holds l = false ∧ ∀ a m, enter l a = some m → holds m = false
    | .halt => True

/-- The lock is with the one thread whose state says so, and wakeup and sleep return with it. -/
structure Held (holds : L → Bool) (s : State n δ κ L) : Prop where
  lock : ∀ p, s.lock = some p ↔ (s.status p).locks holds = true
  back : ∀ p, (∀ l, s.status p ≠ .run l) → holds (s.status p).at = true

namespace Held

variable {holds : L → Bool}

theorem edit (hh : Held holds s) (hne : ∀ q, q ≠ p → t.status q = s.status q)
    (hlock : ∀ q, q ≠ p → (t.lock = some q ↔ s.lock = some q))
    (hp : t.lock = some p ↔ (t.status p).locks holds = true)
    (hback : (∀ l, t.status p ≠ .run l) → holds (t.status p).at = true) : Held holds t := by
  constructor
  · intro q
    by_cases hq : q = p
    · subst hq
      exact hp
    · rw [hne q hq, hlock q hq]
      exact hh.lock q
  · intro q
    by_cases hq : q = p
    · subst hq
      exact hback
    · rw [hne q hq]
      exact hh.back q

theorem goto {st₀ st : Status n κ L} (hh : Held holds s) (hs : s.status p = st₀)
    (hl : st.locks holds = st₀.locks holds)
    (hback : ((∀ l, st₀ ≠ .run l) → holds st₀.at = true) → (∀ l, st ≠ .run l) → holds st.at = true) :
    Held holds (s.goto p st) := by
  subst hs
  refine hh.edit (fun q hq => State.goto_ne hq) (fun _ _ => Iff.rfl) ?_ ?_
  · rw [State.goto_self, hl]
    exact hh.lock p
  · rw [State.goto_self]
    exact hback (hh.back p)

theorem take {m : L} (hh : Held holds s) (hlock : s.lock = none)
    (hm : holds m = true) : Held holds ({ s with lock := some p }.goto p (.run m)) := by
  refine hh.edit (fun q hq => State.goto_ne hq) ?_ ?_ ?_
  · intro q hq
    show some p = some q ↔ s.lock = some q
    rw [hlock]
    simp [Ne.symm hq]
  · rw [State.goto_self]
    exact ⟨fun _ => hm, fun _ => rfl⟩
  · intro hc
    exact absurd (State.goto_self _ _ _) (hc m)

theorem give {st : Status n κ L} (hh : Held holds s) (hlock : s.lock = some p)
    (hl : st.locks holds = false) (hback : (∀ l, st ≠ .run l) → holds st.at = true) :
    Held holds ({ s with lock := none }.goto p st) := by
  refine hh.edit (fun q hq => State.goto_ne hq) ?_ ?_ ?_
  · intro q hq
    show none = some q ↔ s.lock = some q
    rw [hlock]
    simp [Ne.symm hq]
  · show none = some p ↔ _
    rw [State.goto_self, hl]
    simp
  · rw [State.goto_self]
    exact hback

theorem step (hpair : Paired code enter holds) (hh : Held holds s) (h : Step code enter s a t) :
    Held holds t := by
  cases h with
  | @call p a l m hs hc he =>
    have hl := hpair l
    rw [hc] at hl
    exact hh.goto hs ((hl.2 a m he).trans hl.1.symm) fun _ hr => absurd rfl (hr m)
  | @acquire p l m hs hc hlock =>
    have hl := hpair l
    rw [hc] at hl
    exact hh.take hlock hl
  | @release p l m hs hc hlock =>
    have hl := hpair l
    rw [hc] at hl
    exact hh.give hlock hl fun hr => absurd rfl (hr m)
  | @act p l f hs hc =>
    have hl := hpair l
    rw [hc] at hl
    have hh' : Held holds { s with data := (f s.data).1 } := ⟨hh.lock, hh.back⟩
    exact hh'.goto hs (hl s.data) fun _ hr => absurd rfl (hr _)
  | @killed p l f hs hc =>
    have hl := hpair l
    rw [hc] at hl
    exact hh.goto hs (hl (s.killed p)) fun _ hr => absurd rfl (hr _)
  | @wakeup p l m c hs hc =>
    have hl := hpair l
    rw [hc] at hl
    exact hh.goto hs hl.1.symm fun _ _ => hl.2
  | @woke p m c hs =>
    have hm := hh.back p (by simp [hs])
    rw [hs] at hm
    exact hh.goto hs hm fun _ hr => absurd rfl (hr m)
  | pass hs _ => exact hh.goto hs rfl fun hm _ => hm (by simp)
  | @wake p q qs l m c hs hq hsq =>
    have hh' : Held holds (s.goto q (.woken l)) := hh.goto hsq rfl fun hm _ => hm (by simp)
    exact hh'.goto ((State.goto_ne (Ne.symm hq)).trans hs) rfl fun hm _ => hm (by simp)
  | @sleep p l m c hs hc =>
    have hl := hpair l
    rw [hc] at hl
    exact hh.goto hs hl.1.symm fun _ _ => hl.2
  | @doze p m c hs hlock =>
    have hm := hh.back p (by simp [hs])
    rw [hs] at hm
    exact hh.give hlock rfl fun _ => hm
  | fall hs => exact hh.goto hs rfl fun hm _ => hm (by simp)
  | rise hs => exact hh.goto hs rfl fun hm _ => hm (by simp)
  | @retake p m hs hlock =>
    have hm := hh.back p (by simp [hs])
    rw [hs] at hm
    exact hh.take hlock hm
  | @rouse p l c hs =>
    have hh' : Held holds { s with killed := update s.killed p true } :=
      ⟨hh.lock, hh.back⟩
    exact hh'.goto hs rfl fun hm _ => hm (by simp)
  | mark a b => exact ⟨hh.lock, hh.back⟩

end Held

/-- The thread sleeps on the channel, or is on its way to. -/
def Status.waits (c : κ) : Status n κ L → Prop
  | .dozing c' _ => c' = c
  | .falling c' _ => c' = c
  | .asleep c' _ => c' = c
  | _ => False

/-- Who holds the lock has still to wake this thread on that channel: `owes` says it of local
states, and a wakeup under way owes it to the slots to come. -/
def Status.owed (owes : L → κ → Prop) (c : κ) (q : Fin n) : Status n κ L → Prop
  | .run l => owes l c
  | .waking c' qs l => c' = c ∧ q ∈ qs ∨ owes l c
  | _ => False

/-- Whoever sleeps has a reason to, or will be woken before the lock is free again. -/
def Handoff (reason : κ → δ → Prop) (owes : L → κ → Prop) (s : State n δ κ L) : Prop :=
  ∀ q c, (s.status q).waits c → reason c s.data ∨
    ∃ p, s.lock = some p ∧ (s.status p).owed owes c q

/-- What a thread must see to in its next step: that no reason goes that it does not owe a wakeup
for, and no debt but by a wakeup. -/
def Duty (code : L → Instr δ κ L) (reason : κ → δ → Prop) (owes : L → κ → Prop)
    (s : State n δ κ L) (p : Fin n) : Prop :=
  ∀ l, s.status p = .run l → match code l with
    | .release _ => ∀ c, ¬owes l c
    | .act f => (∀ c, owes l c → owes (f s.data).2 c) ∧ ∀ c, reason c s.data →
        reason c (f s.data).1 ∨ s.lock = some p ∧ owes (f s.data).2 c
    | .killed f => ∀ c, owes l c → owes (f (s.killed p)) c
    | .wakeup c m => ∀ c', owes l c' → c' = c ∨ owes m c'
    | .sleep c _ => reason c s.data ∧ ∀ c', ¬owes l c'
    | _ => True

namespace Handoff

variable {holds : L → Bool} {reason : κ → δ → Prop} {owes : L → κ → Prop}

theorem edit (hh : Handoff reason owes s)
    (hwait : ∀ q c, (t.status q).waits c → (s.status q).waits c ∨ reason c t.data)
    (hdata : ∀ c, reason c s.data → reason c t.data ∨
      ∃ p, t.lock = some p ∧ ∀ q, (t.status p).owed owes c q)
    (howed : ∀ q c p, (t.status q).waits c → s.lock = some p → (s.status p).owed owes c q →
      ∃ p', t.lock = some p' ∧ (t.status p').owed owes c q) : Handoff reason owes t := by
  intro q c hw
  rcases hwait q c hw with hw' | hr
  · rcases hh q c hw' with hr | ⟨p, hp, ho⟩
    · rcases hdata c hr with hr | ⟨p, hp, ho⟩
      · exact .inl hr
      · exact .inr ⟨p, hp, ho q⟩
    · exact .inr (howed q c p hw hp ho)
  · exact .inl hr

theorem waits_goto {st : Status n κ L} {R : κ → Prop}
    (h : ∀ c, st.waits c → (s.status p).waits c ∨ R c) (q : Fin n) (c : κ)
    (hw : ((s.goto p st).status q).waits c) : (s.status q).waits c ∨ R c := by
  by_cases hq : q = p
  · subst hq
    rw [State.goto_self] at hw
    exact h c hw
  · rw [State.goto_ne hq] at hw
    exact .inl hw

/-- A step of one thread that leaves data and lock alone. -/
theorem goto {st₀ st : Status n κ L} (hh : Handoff reason owes s) (hs : s.status p = st₀)
    (hwait : ∀ c, st.waits c → st₀.waits c ∨ reason c s.data)
    (howed : ∀ q c, ((s.goto p st).status q).waits c → s.lock = some p →
      st₀.owed owes c q → st.owed owes c q) : Handoff reason owes (s.goto p st) := by
  subst hs
  refine hh.edit (waits_goto hwait) (fun c hr => .inl hr) fun q c p' hw hp ho => ⟨p', hp, ?_⟩
  by_cases hq : p' = p
  · subst hq
    rw [State.goto_self]
    exact howed q c hw hp ho
  · rw [State.goto_ne hq]
    exact ho

/-- The lock is free, so all have a reason. -/
theorem take {m : L} (hh : Handoff reason owes s) (hlock : s.lock = none) :
    Handoff reason owes ({ s with lock := some p }.goto p (.run m)) := by
  exact hh.edit (waits_goto fun c hw => hw.elim) (fun c hr => .inl hr)
    fun q c p' _ hp => by simp [hlock] at hp

/-- Who gives up the lock owes nothing. -/
theorem give {st₀ st : Status n κ L} (hh : Handoff reason owes s)
    (hlock : s.lock = some p) (hs : s.status p = st₀) (hwait : ∀ c, st.waits c → st₀.waits c)
    (hnone : ∀ c q, ¬st₀.owed owes c q) :
    Handoff reason owes ({ s with lock := none }.goto p st) := by
  subst hs
  refine hh.edit (waits_goto fun c hw => .inl (hwait c hw)) (fun c hr => .inl hr) ?_
  intro q c p' _ hp ho
  rw [hlock] at hp
  cases hp
  exact absurd ho (hnone c q)

/-- A thread that sleeps is woken. -/
theorem rouse {q : Fin n} {c : κ} (hh : Handoff reason owes s)
    (hq : s.status q = .asleep c l) : Handoff reason owes (s.goto q (.woken l)) :=
  hh.goto hq (fun _ hw => hw.elim) fun _ _ _ _ ho => ho.elim

theorem step (hh : Handoff reason owes s) (hl : Held holds s)
    (hpair : Paired code enter holds) (hd : ∀ p, a = .step p → Duty code reason owes s p)
    (h : Step code enter s a t) : Handoff reason owes t := by
  cases h with
  | @call p a l m hs hc he =>
    -- who is out of the code does not hold the lock
    refine hh.goto hs (fun c hw => hw.elim) fun q c _ hlock _ => ?_
    have h1 := (hl.lock p).mp hlock
    have h2 := hpair l
    rw [hs] at h1
    rw [hc] at h2
    exact absurd h1 (by simp [Status.locks, h2.1])
  | @acquire p l m hs hc hlock => exact hh.take hlock
  | @release p l m hs hc hlock =>
    have hduty := hd p rfl l hs
    rw [hc] at hduty
    exact hh.give hlock hs (fun c hw => hw.elim) fun c q => hduty c
  | @act p l f hs hc =>
    have hduty := hd p rfl l hs
    rw [hc] at hduty
    refine hh.edit (waits_goto fun c hw => hw.elim) ?_ ?_
    · intro c hr
      rcases hduty.2 c hr with hr | ⟨hlock, ho⟩
      · exact .inl hr
      · refine .inr ⟨p, hlock, fun q => ?_⟩
        rw [State.goto_self]
        exact ho
    · intro q c p' _ hp ho
      refine ⟨p', hp, ?_⟩
      by_cases hq : p' = p
      · subst hq
        rw [hs] at ho
        rw [State.goto_self]
        exact hduty.1 c ho
      · rw [State.goto_ne hq]
        exact ho
  | @killed p l f hs hc =>
    have hduty := hd p rfl l hs
    rw [hc] at hduty
    exact hh.goto hs (fun c hw => hw.elim) fun q c _ _ ho => hduty c ho
  | @wakeup p l m c hs hc =>
    have hduty := hd p rfl l hs
    rw [hc] at hduty
    refine hh.goto hs (fun c hw => hw.elim) fun q c' _ _ ho => ?_
    rcases hduty c' ho with rfl | ho
    · exact .inl ⟨rfl, List.mem_finRange q⟩
    · exact .inr ho
  | @woke p m c hs =>
    refine hh.goto hs (fun c hw => hw.elim) fun q c' _ _ ho => ?_
    rcases ho with ⟨-, hq⟩ | ho
    · cases hq
    · exact ho
  | @pass p q qs m c hs hq =>
    refine hh.goto hs (fun c hw => hw.elim) fun q' c' hw _ ho => ?_
    rcases ho with ⟨rfl, hm⟩ | ho
    · rcases List.mem_cons.mp hm with rfl | hm
      · -- the slot that is passed over does not wait
        exfalso
        rcases hq with rfl | ⟨hbusy, hasleep⟩
        · rw [State.goto_self] at hw
          exact hw
        · by_cases hqp : q' = p
          · subst hqp
            rw [State.goto_self] at hw
            exact hw
          · rw [State.goto_ne hqp] at hw
            cases hst : s.status q' with
            | dozing c₁ l => simp [hst, Status.busy] at hbusy
            | falling c₁ l => simp [hst, Status.busy] at hbusy
            | asleep c₁ l =>
              rw [hst] at hw
              obtain rfl : c₁ = c := hw
              exact hasleep l hst
            | _ =>
              rw [hst] at hw
              exact hw
      · exact .inl ⟨rfl, hm⟩
    · exact .inr ho
  | @wake p q qs l m c hs hq hsq =>
    refine (hh.rouse hsq).goto ((State.goto_ne (Ne.symm hq)).trans hs) (fun c hw => hw.elim)
      fun q' c' hw _ ho => ?_
    rcases ho with ⟨rfl, hm⟩ | ho
    · rcases List.mem_cons.mp hm with rfl | hm
      · rw [State.goto_ne hq, State.goto_self] at hw
        exact hw.elim
      · exact .inl ⟨rfl, hm⟩
    · exact .inr ho
  | @sleep p l m c hs hc =>
    have hduty := hd p rfl l hs
    rw [hc] at hduty
    refine hh.goto hs ?_ fun q c' _ _ ho => absurd ho (hduty.2 c')
    rintro c' rfl
    exact .inr hduty.1
  | doze hs hlock => exact hh.give hlock hs (fun c' hw => hw) fun c' q ho => ho
  | fall hs => exact hh.goto hs (fun c' hw => .inl hw) fun q c' _ _ ho => ho
  | rise hs => exact hh.goto hs (fun c' hw => hw.elim) fun q c' _ _ ho => ho
  | @retake p m hs hlock => exact hh.take hlock
  | @rouse p l c hs =>
    exact Handoff.rouse hh hs
  | mark a b => exact hh

/-- A thread asleep while the lock is free has its reason. -/
theorem asleep {q : Fin n} {c : κ} (hh : Handoff reason owes s) (hlock : s.lock = none)
    (hq : s.status q = .asleep c l) : reason c s.data := by
  rcases hh q c (by rw [hq]; rfl) with hr | ⟨p, hp, -⟩
  · exact hr
  · simp [hlock] at hp

end Handoff

/-- How a thread goes from one local state to another, and what it makes of the data. -/
inductive Goes (code : L → Instr δ κ L) (enter : L → A → Option L) (d : δ) (l : L) :
    δ → L → Prop
  | acquire {m : L} : code l = .acquire m → Goes code enter d l d m
  | release {m : L} : code l = .release m → Goes code enter d l d m
  | act {f : δ → δ × L} : code l = .act f → Goes code enter d l (f d).1 (f d).2
  | killed {f : Bool → L} (b : Bool) : code l = .killed f → Goes code enter d l d (f b)
  | wakeup {c : κ} {m : L} : code l = .wakeup c m → Goes code enter d l d m
  | sleep {c : κ} {m : L} : code l = .sleep c m → Goes code enter d l d m
  | call {a : A} {m : L} : code l = .user → enter l a = some m → Goes code enter d l d m

theorem goto_at {st : Status n κ L} (h : st.at = (s.status p).at) (q : Fin n) :
    ((s.goto p st).status q).at = (s.status q).at := by
  by_cases hq : q = p
  · subst hq
    rw [State.goto_self, h]
  · rw [State.goto_ne hq]

theorem goes_goto {s₁ : State n δ κ L} {st : Status n κ L}
    (hs : s.status p = .run l) (hst : s₁.status = s.status)
    (hg : Goes code enter s.data l s₁.data st.at) (ha : s₁.data ≠ s.data → a = .step p) :
    ∃ p' l, s.status p' = .run l ∧
      Goes code enter s.data l (s₁.goto p st).data ((s₁.goto p st).status p').at ∧
      (∀ q, q ≠ p' → (s₁.goto p st).status q = s.status q) ∧
      ((s₁.goto p st).data ≠ s.data → a = .step p') := by
  refine ⟨p, l, hs, ?_, fun q hq => ?_, ha⟩
  · rw [State.goto_self]
    exact hg
  · rw [State.goto_ne hq, hst]

/-- Either nothing happens to data and local states, or one thread goes on. -/
theorem Step.goes (h : Step code enter s a t) :
    (t.data = s.data ∧ ∀ q, (t.status q).at = (s.status q).at) ∨
    ∃ p l, s.status p = .run l ∧ Goes code enter s.data l t.data (t.status p).at ∧
      (∀ q, q ≠ p → t.status q = s.status q) ∧ (t.data ≠ s.data → a = .step p) := by
  cases h with
  | call hs hc he => exact .inr (goes_goto hs rfl (.call hc he) fun h => absurd rfl h)
  | acquire hs hc _ => exact .inr (goes_goto hs rfl (.acquire hc) fun _ => rfl)
  | release hs hc _ => exact .inr (goes_goto hs rfl (.release hc) fun _ => rfl)
  | act hs hc => exact .inr (goes_goto hs rfl (.act hc) fun _ => rfl)
  | @killed p l f hs hc => exact .inr (goes_goto hs rfl (.killed (s.killed p) hc) fun _ => rfl)
  | wakeup hs hc => exact .inr (goes_goto hs rfl (.wakeup hc) fun _ => rfl)
  | sleep hs hc => exact .inr (goes_goto hs rfl (.sleep hc) fun _ => rfl)
  | woke hs => exact .inl ⟨rfl, goto_at (by rw [hs]; rfl)⟩
  | pass hs _ => exact .inl ⟨rfl, goto_at (by rw [hs]; rfl)⟩
  | @wake p q qs l m c hs hq hsq =>
    refine .inl ⟨rfl, fun q' => ?_⟩
    rw [goto_at (by rw [State.goto_ne (Ne.symm hq), hs]; rfl), goto_at (by rw [hsq]; rfl)]
  | doze hs _ => exact .inl ⟨rfl, goto_at (by rw [hs]; rfl)⟩
  | fall hs => exact .inl ⟨rfl, goto_at (by rw [hs]; rfl)⟩
  | rise hs => exact .inl ⟨rfl, goto_at (by rw [hs]; rfl)⟩
  | retake hs _ => exact .inl ⟨rfl, goto_at (by rw [hs]; rfl)⟩
  | rouse hs => exact .inl ⟨rfl, goto_at (by rw [hs]; rfl)⟩
  | mark a b => exact .inl ⟨rfl, fun _ => rfl⟩

/-- What threads know of the data, `Knows`, goes with the lock: nothing is known without it, and
nothing is known any more after a sleep. -/
structure Learns (code : L → Instr δ κ L) (enter : L → A → Option L) (holds : L → Bool)
    (Knows : L → δ → Prop) : Prop where
  free : ∀ l d, holds l = false → Knows l d
  goes : ∀ d l d' m, Knows l d → Goes code enter d l d' m → Knows m d'
  back : ∀ d l c m, Knows l d → code l = .sleep c m → ∀ d', Knows m d'

def Status.Knows (Knows : L → δ → Prop) (d : δ) : Status n κ L → Prop
  | .run l => Knows l d
  | .waking _ _ l => Knows l d
  | st => ∀ d', Knows st.at d'

/-- Every thread knows what its local state says. -/
def Known (Knows : L → δ → Prop) (s : State n δ κ L) : Prop :=
  ∀ p, (s.status p).Knows Knows s.data

namespace Known

variable {holds : L → Bool} {Knows : L → δ → Prop}

theorem goto {st₀ st : Status n κ L} (hk : Known Knows s) (hs : s.status p = st₀)
    (hst : st₀.Knows Knows s.data → st.Knows Knows s.data) : Known Knows (s.goto p st) := by
  subst hs
  intro q
  by_cases hq : q = p
  · subst hq
    rw [State.goto_self]
    exact hst (hk q)
  · rw [State.goto_ne hq]
    exact hk q

/-- The others know nothing that the holder of the lock could make wrong; who acts without the
lock has to see to it. -/
theorem act {f : δ → δ × L} (hl : Learns code enter holds Knows)
    (hh : Held holds s) (hk : Known Knows s) (hs : s.status p = .run l) (hc : code l = .act f)
    (hact : holds l = true ∨ ∀ m, Knows m s.data → Knows m (f s.data).1) :
    Known Knows ({ s with data := (f s.data).1 }.goto p (.run (f s.data).2)) := by
  intro q
  by_cases hq : q = p
  · subst hq
    rw [State.goto_self]
    have h := hk q
    rw [hs] at h
    exact hl.goes _ _ _ _ h (.act hc)
  · rw [State.goto_ne hq]
    show (s.status q).Knows Knows (f s.data).1
    have hnot : holds l = true → (s.status q).locks holds ≠ true := by
      intro h
      have hp : s.lock = some p := by
        rw [hh.lock p, hs]
        exact h
      rw [Ne, ← hh.lock q, hp]
      simp [Ne.symm hq]
    have h := hk q
    cases hst : s.status q with
    | run m =>
      rw [hst] at hnot h
      rcases hact with hact | hact
      · exact hl.free m _ (by simpa [Status.locks] using hnot hact)
      · exact hact m h
    | waking c qs m =>
      rw [hst] at hnot h
      rcases hact with hact | hact
      · exact absurd rfl (hnot hact)
      · exact hact m h
    | dozing c m =>
      rw [hst] at h
      exact h
    | falling c m =>
      rw [hst] at h
      exact h
    | asleep c m =>
      rw [hst] at h
      exact h
    | woken m =>
      rw [hst] at h
      exact h
    | returning m =>
      rw [hst] at h
      exact h

theorem step (hl : Learns code enter holds Knows) (hh : Held holds s) (hk : Known Knows s)
    (hact : ∀ p l f, s.status p = .run l → code l = .act f →
      holds l = true ∨ ∀ m, Knows m s.data → Knows m (f s.data).1)
    (h : Step code enter s a t) : Known Knows t := by
  cases h with
  | call hs hc he => exact hk.goto hs fun h => hl.goes _ _ _ _ h (.call hc he)
  | acquire hs hc _ => exact Known.goto hk hs fun h => hl.goes _ _ _ _ h (.acquire hc)
  | release hs hc _ => exact Known.goto hk hs fun h => hl.goes _ _ _ _ h (.release hc)
  | @act p l f hs hc => exact act hl hh hk hs hc (hact p l f hs hc)
  | @killed p l f hs hc => exact hk.goto hs fun h => hl.goes _ _ _ _ h (.killed (s.killed p) hc)
  | wakeup hs hc => exact hk.goto hs fun h => hl.goes _ _ _ _ h (.wakeup hc)
  | woke hs => exact hk.goto hs fun h => h
  | pass hs _ => exact hk.goto hs fun h => h
  | @wake p q qs l m c hs hq hsq =>
    have hk' : Known Knows (s.goto q (.woken l)) := hk.goto hsq fun h => h
    exact hk'.goto ((State.goto_ne (Ne.symm hq)).trans hs) fun h => h
  | sleep hs hc => exact hk.goto hs fun h => hl.back _ _ _ _ h hc
  | doze hs _ => exact Known.goto hk hs fun h => h
  | fall hs => exact hk.goto hs fun h => h
  | rise hs => exact hk.goto hs fun h => h
  | retake hs _ => exact Known.goto hk hs fun h => h s.data
  | rouse hs => exact Known.goto hk hs fun h => h
  | mark a b => exact hk

end Known

end Monitor

end Xv6.Framework
