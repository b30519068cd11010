import Xv6.Pipe.Model

namespace Xv6.Pipes

open Xv6.Framework Xv6.Framework.Monitor

/-- Why a process sleeps: there is nothing to read but a writer may come, or no room but a reader
may come. -/
def reason : Chan → Pipe → Prop
  | .nread, pi => pi.nread = pi.nwrite ∧ pi.writeopen = true
  | .nwrite, pi => pi.Full ∧ pi.readopen = true

/-- What a process knows of the pipe while it has the lock. -/
def Knows : Local → Pipe → Prop
  | .writeLoop v, pi => v.announced ≤ v.i ∧ (v.announced < v.i → pi.readopen = true)
  | .writeKilled v, pi => v.announced ≤ v.i ∧ pi.readopen = true
  | .writeByte v, pi => v.announced ≤ v.i ∧ pi.readopen = true
  | .writeFull _, pi => pi.Full ∧ pi.readopen = true
  | .writeSleep v, pi => v.announced = v.i ∧ pi.Full ∧ pi.readopen = true
  | .readKilled _, pi => pi.nread = pi.nwrite ∧ pi.writeopen = true
  | .readSleep _, pi => pi.nread = pi.nwrite ∧ pi.writeopen = true
  | _, _ => True

/-- The wakeups that a process has still to do before it gives up the lock. -/
def owes : Local → Chan → Prop
  | .writeLoop v, .nread => v.announced < v.i
  | .writeKilled v, .nread => v.announced < v.i
  | .writeByte v, .nread => v.announced < v.i
  | .writeFull _, .nread => True
  | .writeEnd _, .nread => True
  | .readCopy _ _, .nwrite => True
  | .readEnd _, .nwrite => True
  | .closeWake writable, c => c = if writable then .nread else .nwrite
  | _, _ => False

theorem knows_free (l : Local) (pi : Pipe) (h : holds l = false) : Knows l pi := by
  cases l <;> first | exact trivial | cases h

theorem knows_act {l : Local} {pi : Pipe} {f : Pipe → Pipe × Local} (hk : Knows l pi)
    (hc : code l = .act f) : Knows (f pi).2 (f pi).1 := by
  cases l with
  | writeCall buffer n =>
    cases hc
    exact ⟨Nat.le_refl 0, fun h => absurd h (Nat.lt_irrefl 0)⟩
  | writeLoop v =>
    cases hc
    obtain ⟨hle, hopen⟩ := hk
    show Knows (if _ then _ else _) pi
    split
    · split
      · rename_i ho
        exact ⟨hle, ho⟩
      · trivial
    · trivial
  | writeByte v =>
    cases hc
    obtain ⟨hle, hopen⟩ := hk
    show Knows (ite _ _ _ : Pipe × Local).2 (ite _ _ _ : Pipe × Local).1
    split
    · rename_i hfull
      exact ⟨hfull, hopen⟩
    · split
      · trivial
      · exact ⟨Nat.le_succ_of_le hle, fun _ => hopen⟩
  | readLoop v =>
    cases hc
    show Knows (if _ then _ else _) pi
    split
    · rename_i h
      exact h
    · trivial
  | readCopy v i =>
    cases hc
    show Knows (ite _ _ _ : Pipe × Local).2 (ite _ _ _ : Pipe × Local).1
    split
    · show Knows (if _ then _ else _) _
      split <;> trivial
    · trivial
  | closeFlag w =>
    cases hc
    trivial
  | _ => cases hc

theorem holds_of_act {l : Local} {f : Pipe → Pipe × Local} (hc : code l = .act f) :
    holds l = true := by
  cases l <;> first | rfl | cases hc

theorem learns : Learns code enter holds Knows where
  free := knows_free
  goes d l d' m hk hg := by
    cases hg with
    | acquire hc => cases l <;> cases hc <;> trivial
    | release hc => cases l <;> cases hc <;> trivial
    | act hc => exact knows_act hk hc
    | killed b hc =>
      cases l with
      | writeKilled v =>
        cases hc
        cases b with
        | false => exact hk
        | true => trivial
      | readKilled v =>
        cases hc
        cases b with
        | false => exact hk
        | true => trivial
      | _ => cases hc
    | wakeup hc =>
      cases l with
      | writeFull v =>
        cases hc
        exact ⟨rfl, hk⟩
      | writeEnd v =>
        cases hc
        trivial
      | readEnd i =>
        cases hc
        trivial
      | closeWake w =>
        cases hc
        trivial
      | _ => cases hc
    | sleep hc =>
      cases l with
      | writeSleep v =>
        cases hc
        exact ⟨Nat.le_of_eq hk.1, fun h => absurd hk.1 (Nat.ne_of_lt h)⟩
      | readSleep v =>
        cases hc
        trivial
      | _ => cases hc
    | @call a m hc he =>
      cases l with
      | user r => cases a <;> (cases he; trivial)
      | _ => cases hc
  back d l c m hk hc d' := by
    cases l with
    | writeSleep v =>
      cases hc
      exact ⟨Nat.le_of_eq hk.1, fun h => absurd hk.1 (Nat.ne_of_lt h)⟩
    | readSleep v =>
      cases hc
      trivial
    | _ => cases hc

/-- The call of pipewrite that is about to ask whether its process has been killed. -/
def askingKilled (s : State) (p : Fin NPROC) : Option Write :=
  match s.status p with
  | .run (.writeKilled v) => some v
  | _ => none

/-- If the process finds itself killed in pipewrite, it has stored nothing since it last woke the
readers. -/
def Announced (e : Event State Label) : Prop :=
  match e.label with
  | .step p => ∀ v, askingKilled e.pre p = some v → e.pre.killed p = true → v.announced = v.i
  | _ => True

instance : DecidablePred Announced
  | ⟨s, .step p, _⟩ => inferInstanceAs
      (Decidable (∀ v, askingKilled s p = some v → s.killed p = true → v.announced = v.i))
  | ⟨_, .call _ _, _⟩ => isTrue trivial
  | ⟨_, .kill _, _⟩ => isTrue trivial
  | ⟨_, .renew _, _⟩ => isTrue trivial

/-- Every step but the way out of a killed writer does what it has to. -/
theorem duty {s : State} {p : Fin NPROC} (hh : Held holds s) (hk : Known Knows s)
    (hann : ∀ v, s.status p = .run (.writeKilled v) → s.killed p = true → v.announced = v.i) :
    Duty code reason owes s p := by
  intro l hs
  have hkp := hk p
  rw [hs] at hkp
  have hlock : holds l = true → s.lock = some p := by
    intro h
    rw [hh.lock p, hs]
    exact h
  cases l with
  | writeCall buffer n =>
    refine ⟨fun c ho => by cases c <;> exact ho.elim, fun c hr => .inl ?_⟩
    cases c <;> exact hr
  | writeLoop v =>
    refine ⟨fun c ho => ?_, fun c hr => .inl hr⟩
    cases c with
    | nwrite => exact ho.elim
    | nread =>
      show owes (if _ then _ else _) _
      split
      · rw [if_pos (hkp.2 ho)]
        exact ho
      · trivial
  | writeKilled v =>
    intro c ho
    cases c with
    | nwrite => exact ho.elim
    | nread =>
      cases hkill : s.killed p with
      | false => exact ho
      | true => exact absurd (hann v hs hkill) (Nat.ne_of_lt ho)
  | writeByte v =>
    show (∀ c, _ → owes (ite _ _ _ : Pipe × Local).2 c) ∧ ∀ c, _ →
      reason c (ite _ _ _ : Pipe × Local).1 ∨ _ ∧ owes (ite _ _ _ : Pipe × Local).2 c
    split
    · refine ⟨fun c ho => ?_, fun c hr => .inl hr⟩
      cases c with
      | nread => trivial
      | nwrite => exact ho.elim
    rename_i hfull
    split
    · refine ⟨fun c ho => ?_, fun c hr => .inl hr⟩
      cases c with
      | nread => trivial
      | nwrite => exact ho.elim
    · refine ⟨fun c ho => ?_, fun c hr => ?_⟩
      · cases c with
        | nread => exact Nat.lt_succ_of_le hkp.1
        | nwrite => exact ho.elim
      · cases c with
        | nread => exact .inr ⟨hlock rfl, Nat.lt_succ_of_le hkp.1⟩
        | nwrite => exact absurd hr.1 hfull
  | writeRelease v => exact fun c ho => by cases c <;> exact ho
  | writeFail v => exact fun c ho => by cases c <;> exact ho
  | writeFull v =>
    intro c ho
    cases c with
    | nread => exact .inl rfl
    | nwrite => exact ho.elim
  | writeSleep v => exact ⟨hkp.2, fun c ho => by cases c <;> exact ho⟩
  | writeEnd v =>
    intro c ho
    cases c with
    | nread => exact .inl rfl
    | nwrite => exact ho.elim
  | readLoop v => exact ⟨fun c ho => by cases c <;> exact ho.elim, fun c hr => .inl hr⟩
  | readKilled v => exact fun c ho => by cases c <;> exact ho.elim
  | readSleep v => exact ⟨hkp, fun c ho => by cases c <;> exact ho⟩
  | readCopy v i =>
    show (∀ c, _ → owes (ite _ _ _ : Pipe × Local).2 c) ∧ ∀ c, _ →
      reason c (ite _ _ _ : Pipe × Local).1 ∨ _ ∧ owes (ite _ _ _ : Pipe × Local).2 c
    split
    · rename_i hne
      have hnext : owes (if v.writable i then .readCopy v (i + 1) else .readEnd i) .nwrite := by
        split <;> trivial
      refine ⟨fun c ho => ?_, fun c hr => ?_⟩
      · cases c with
        | nread => exact ho.elim
        | nwrite => exact hnext
      · cases c with
        | nread => exact absurd hr.1 hne.2
        | nwrite => exact .inr ⟨hlock rfl, hnext⟩
    · refine ⟨fun c ho => ?_, fun c hr => .inl hr⟩
      cases c with
      | nread => exact ho.elim
      | nwrite => trivial
  | readEnd i =>
    intro c ho
    cases c with
    | nread => exact ho.elim
    | nwrite => exact .inl rfl
  | readRelease i => exact fun c ho => by cases c <;> exact ho
  | readFail => exact fun c ho => by cases c <;> exact ho
  | closeFlag w =>
    refine ⟨fun c ho => by cases c <;> exact ho.elim, fun c hr => ?_⟩
    cases w with
    | true =>
      cases c with
      | nread => exact .inr ⟨hlock rfl, rfl⟩
      | nwrite => exact .inl hr
    | false =>
      cases c with
      | nread => exact .inl hr
      | nwrite => exact .inr ⟨hlock rfl, rfl⟩
  | closeWake w => exact fun c ho => .inl ho
  | closeRelease => exact fun c ho => by cases c <;> exact ho
  | _ => trivial

/-- What holds in every run whose killed writers leave no reader asleep. -/
structure Quiet (s : State) : Prop where
  held : Held holds s
  known : Known Knows s
  handoff : Handoff reason owes s

theorem Quiet.init (junk : Fin PIPESIZE → UInt8) : Quiet (init junk) :=
  ⟨held_init junk, fun _ => trivial, fun _ _ hw => hw.elim⟩

theorem Quiet.next {s t : State} {a : Label} (hq : Quiet s) (h : next s a = some t)
    (hann : Announced ⟨s, a, t⟩) : Quiet t := by
  have hstep := step_of_next h
  refine ⟨hq.held.step paired hstep, hq.known.step learns hq.held
      (fun _ _ _ _ hc => .inl (holds_of_act hc)) hstep,
    hq.handoff.step hq.held paired (fun p hp => ?_) hstep⟩
  subst hp
  exact duty hq.held hq.known fun v hv hk => hann v (by rw [askingKilled, hv]) hk

/-- While pi->lock is free, nobody sleeps without a reason on either channel, provided that no
writer gives up as killed with bytes stored that it has not told the readers about. -/
theorem pipe_sleepers {junk : Fin PIPESIZE → UInt8} {tr : List (Event State Label)} {s : State}
    (hp : Path next (init junk) tr s) (hann : ∀ e ∈ tr, Announced e) (hlock : s.lock = none) :
    (∀ q l, s.status q = .asleep .nread l →
      s.data.nread = s.data.nwrite ∧ s.data.writeopen = true) ∧
    (∀ q l, s.status q = .asleep .nwrite l → s.data.Full ∧ s.data.readopen = true) := by
  have hq : Quiet s := hp.invariant
    (fun _ _ _ hq h hC => hq.next h hC) (Quiet.init junk) hann
  exact ⟨fun q l hs => hq.handoff.asleep hlock hs, fun q l hs => hq.handoff.asleep hlock hs⟩

def readerSleeps : List Label :=
  [.call 1 (.piperead ⟨1, fun _ => true⟩), .step 1, .step 1, .step 1, .step 1, .step 1, .step 1]

/-- Then a writer that has been killed finds this out before its first byte. -/
def killedWriter : List Label := readerSleeps ++
  [.kill 0, .call 0 (.pipewrite (fun _ => some 7) 2), .step 0, .step 0, .step 0, .step 0, .step 0]

set_option maxRecDepth 8192 in
theorem pipe_sleepers_killedWriter :
    let s := final next (init fun _ => 5) killedWriter
    s.status 1 = .asleep .nread (.readLoop ⟨1, fun _ => true⟩) ∧ s.data.nread = s.data.nwrite := by
  intro s
  have hp : Path next (init fun _ => 5) _ s := path_final (by decide +kernel)
  have hs : s.status 1 = .asleep .nread (.readLoop ⟨1, fun _ => true⟩) := rfl
  have hann : ∀ e ∈ events next (init fun _ => 5) killedWriter, Announced e := by decide +kernel
  exact ⟨hs, ((pipe_sleepers hp hann rfl).1 1 _ hs).1⟩

/-- Here it is killed after the first byte. -/
def writerKilled : List Label := readerSleeps ++
  [.call 0 (.pipewrite (fun _ => some 7) 2), .step 0, .step 0, .step 0, .step 0, .step 0, .kill 0,
    .step 0, .step 0, .step 0]

theorem writerKilled_sleeps :
    ∃ tr s, Path next (init fun _ => 5) tr s ∧ s.lock = none ∧
      (∃ l, s.status 1 = .asleep .nread l) ∧ s.data.nread ≠ s.data.nwrite := by
  refine ⟨_, final next (init fun _ => 5) writerKilled, path_final (by decide +kernel), ?_, ?_, ?_⟩
  · rfl
  · exact ⟨_, rfl⟩
  · decide +kernel

end Xv6.Pipes
