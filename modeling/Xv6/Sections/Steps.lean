import Xv6.Sections.Model

namespace Xv6.Sections

open Xv6.Framework Xv6.Process

variable {w w' : World} {c : Nat} {p q : ProcId} {l : Label}

inductive SchedSection (w : World) (c : Nat) : World → Prop
  | back {p : ProcId} (hc : w.cpu c = .switched p) :
      SchedSection w c ((w.setLock p none).setCpu c (.scan w.mode 0 none))
  | first {p : ProcId} {o : Option ProcId} (hc : w.cpu c = .scan .roundRobin p o)
      (hf : w.lock p = none) (hr : (w.procs p).state = .runnable) :
      SchedSection w c (dispatch w c p)
  | choose {m : SchedMode} {p : ProcId} (hc : w.cpu c = .scan m p none) (hm : m ≠ .roundRobin)
      (hf : w.lock p = none) (hr : (w.procs p).state = .runnable) :
      SchedSection w c ((w.setLock p (some c)).setCpu c (.scan m (p + 1) (some p)))
  | rechoose {m : SchedMode} {p q : ProcId} (hc : w.cpu c = .scan m p (some q))
      (hm : m ≠ .roundRobin) (hf : w.lock p = none) (hr : (w.procs p).state = .runnable) :
      SchedSection w c
        (((w.setLock q none).setLock p (some c)).setCpu c (.scan m (p + 1) (some p)))
  | skip {m : SchedMode} {p : ProcId} {o : Option ProcId} (hc : w.cpu c = .scan m p o)
      (hf : w.lock p = none)
      (hr : (w.procs p).state = .runnable → prefers w.procs m p o = false) :
      SchedSection w c (w.setCpu c (.scan m (p + 1) o))
  | last {m : SchedMode} {i : Nat} {p : ProcId} (hc : w.cpu c = .scan m i (some p)) :
      SchedSection w c (dispatch w c p)
  | idle {m : SchedMode} {i : Nat} (hc : w.cpu c = .scan m i none) (hi : NPROC ≤ i) :
      SchedSection w c (w.setCpu c (.scan w.mode 0 none))

inductive Section (w : World) (c : Nat) (p : ProcId) : World → Prop
  | forkret (hpc : w.pc p = .forkret) : Section w c p (dropOwn w p .user)
  | yielded {k : Pc} (hpc : w.pc p = .yielded k) : Section w c p (dropOwn w p k)
  | fork (hpc : w.pc p = .user) : Section w c p (w.setPc p (.forkAlloc 0))
  | forkAlloc {np : ProcId} (hpc : w.pc p = .forkAlloc np) (hf : w.lock np = none)
      (hu : (w.procs np).state = .unused) (ok : Bool) : Section w c p (forkAt w p np ok)
  | forkNext {i : Nat} (hpc : w.pc p = .forkAlloc i) :
      Section w c p (w.setPc p (.forkAlloc (i + 1)))
  | forkFull {i : Nat} (hpc : w.pc p = .forkAlloc i) : Section w c p (w.setPc p .user)
  | forkParent {np : ProcId} (hpc : w.pc p = .forkParent np) (hw : w.waitLock = none) :
      Section w c p
        ((w.setProc np { w.procs np with parent := some p }).setPc p (.forkReady np))
  | forkReady {np : ProcId} (hpc : w.pc p = .forkReady np) (hf : w.lock np = none) :
      Section w c p ((w.setProc np { w.procs np with state := .runnable }).setPc p .user)
  | wait (hpc : w.pc p = .user) (addr : UInt64) : Section w c p (waitAt w p addr)
  | waitLock (hpc : w.pc p = .waitLock) (hw : w.waitLock = none) :
      Section w c p (takeWait w p (.waitScan 0 false))
  | waitOther {q : ProcId} {b : Bool} (hpc : w.pc p = .waitScan q b)
      (hq : (w.procs q).parent ≠ some p) : Section w c p (w.setPc p (.waitScan (q + 1) b))
  | waitAlive {q : ProcId} {b : Bool} (hpc : w.pc p = .waitScan q b) (hf : w.lock q = none)
      (hq : (w.procs q).parent = some p) (hs : (w.procs q).state ≠ .zombie) :
      Section w c p (w.setPc p (.waitScan (q + 1) true))
  | waitCopyout {i : Nat} {b : Bool} (hpc : w.pc p = .waitScan i b) :
      Section w c p (w.setPc p (.waitUnlock (-1)))
  | reap {q : ProcId} {b : Bool} (hpc : w.pc p = .waitScan q b) (hf : w.lock q = none)
      (hq : (w.procs q).parent = some p) (hz : (w.procs q).state = .zombie) :
      Section w c p (reapAt w p q)
  | waitEnd {i : Nat} {b : Bool} (hpc : w.pc p = .waitScan i b) (hi : NPROC ≤ i) :
      Section w c p (w.setPc p (.waitKilled b))
  | waitGiveUp {b : Bool} (hpc : w.pc p = .waitKilled b) :
      Section w c p (w.setPc p (.waitUnlock (-1)))
  | waitStay {b : Bool} (hpc : w.pc p = .waitKilled b) : Section w c p (w.setPc p .waitSleepLock)
  | waitUnlock {ret : Int} (hpc : w.pc p = .waitUnlock ret) : Section w c p (waitReturn w p ret)
  | waitSleepLock (hpc : w.pc p = .waitSleepLock) (hf : w.lock p = none) :
      Section w c p ((w.setLock p (some c)).setPc p .waitSleepUnlock)
  | waitSleepUnlock (hpc : w.pc p = .waitSleepUnlock) :
      Section w c p (dropWait w p .waitSleepSched)
  | waitSleepSched (hpc : w.pc p = .waitSleepSched) :
      Section w c p
        (swtch w c p { w.procs p with chan := some (.proc p), state := .sleeping } .waitWake)
  | waitWake (hpc : w.pc p = .waitWake) :
      Section w c p (dropOwn (w.setProc p { w.procs p with chan := none }) p .waitLock)
  | exit (hpc : w.pc p = .user) (hi : p ≠ initproc) (status : Int) :
      Section w c p (exitAt w p status)
  | exitLock {status : Int} (hpc : w.pc p = .exitLock status) (hw : w.waitLock = none) :
      Section w c p (takeWait w p (.exitTime status))
  | exitTime {status : Int} (hpc : w.pc p = .exitTime status) :
      Section w c p
        ((w.setProc p ((w.procs p).recordCompletion w.ticks)).setPc p (.exitWaiting status))
  | exitWaiting {status : Int} (hpc : w.pc p = .exitWaiting status) :
      Section w c p ((w.setProc p (w.procs p).recordWaiting).setPc p (.exitReparent status 0))
  | reparent {status : Int} {q : ProcId} (hpc : w.pc p = .exitReparent status q)
      (hq : (w.procs q).parent = some p) :
      Section w c p ((w.setProc q { w.procs q with parent := some initproc }).setPc p
        (.wakeup (.proc initproc) 0 (.exitReparent status (q + 1))))
  | reparentNext {status : Int} {q : ProcId} (hpc : w.pc p = .exitReparent status q)
      (hq : (w.procs q).parent ≠ some p) :
      Section w c p (w.setPc p (.exitReparent status (q + 1)))
  | reparentEnd {status : Int} {i : Nat} (hpc : w.pc p = .exitReparent status i)
      (hi : NPROC ≤ i) : Section w c p (w.setPc p (.exitParent status))
  | exitParent {status : Int} {pp : ProcId} (hpc : w.pc p = .exitParent status)
      (hp : (w.procs p).parent = some pp) :
      Section w c p (w.setPc p (.wakeup (.proc pp) 0 (.exitZombie status)))
  | exitOrphan {status : Int} (hpc : w.pc p = .exitParent status)
      (hp : (w.procs p).parent = none) : Section w c p (w.setPc p (.exitZombie status))
  | exitZombie {status : Int} (hpc : w.pc p = .exitZombie status) (hf : w.lock p = none) :
      Section w c p (becomeZombie w c p status)
  | exitUnlock (hpc : w.pc p = .exitUnlock) : Section w c p (dropWait w p .exitSched)
  | exitSched (hpc : w.pc p = .exitSched) : Section w c p (swtch w c p (w.procs p) .exitSched)
  | wakeupSelf {ch : Chan} {k : Pc} (hpc : w.pc p = .wakeup ch p k) :
      Section w c p (w.setPc p (.wakeup ch (p + 1) k))
  | wakeup {ch : Chan} {q : ProcId} {k : Pc} (hpc : w.pc p = .wakeup ch q k) (hne : q ≠ p)
      (hf : w.lock q = none) :
      Section w c p ((w.setProc q ((w.procs q).wakeup ch)).setPc p (.wakeup ch (q + 1) k))
  | wakeupEnd {ch : Chan} {i : Nat} {k : Pc} (hpc : w.pc p = .wakeup ch i k) (hi : NPROC ≤ i) :
      Section w c p (w.setPc p k)
  | callKill (hpc : w.pc p = .user) (pid : Int) : Section w c p (w.setPc p (.kill pid 0))
  | kill {pid : Int} {q : ProcId} (hpc : w.pc p = .kill pid q) (hf : w.lock q = none) :
      Section w c p ((w.setProc q (w.procs q).kill).setPc p .user)
  | killNext {pid : Int} {i : Nat} (hpc : w.pc p = .kill pid i) :
      Section w c p (w.setPc p (.kill pid (i + 1)))
  | killEnd {pid : Int} {i : Nat} (hpc : w.pc p = .kill pid i) : Section w c p (w.setPc p .user)
  | sleep {ch : Chan} (hpc : w.pc p = .user) (hf : w.lock p = none) (hch : ∀ q, ch ≠ .proc q) :
      Section w c p
        (swtch w c p { w.procs p with chan := some ch, state := .sleeping } .sleepWake)
  | sleepWake (hpc : w.pc p = .sleepWake) :
      Section w c p (dropOwn (w.setProc p { w.procs p with chan := none }) p .user)
  | yield (hpc : (w.pc p).preemptible = true) (hf : w.lock p = none) :
      Section w c p (swtch w c p { w.procs p with state := .runnable } (.yielded (w.pc p)))

inductive Step (w : World) : Label → World → Prop
  | sched {c : Nat} {w' : World} (h : SchedSection w c w') : Step w (.sched c) w'
  | proc {c : Nat} {p : ProcId} {a : Choice} {w' : World} (hc : w.cpu c = .run p)
      (h : Section w c p w') : Step w (.proc c a) w'
  | tick (hc : w.clock = .idle) :
      Step w .clock { w with ticks := (w.ticks + 1) % 2 ^ 32, clock := .update 0 }
  | update {q : ProcId} (hc : w.clock = .update q) (hf : w.lock q = none) :
      Step w .clock { w.setProc q (w.procs q).updateTime with clock := .update (q + 1) }
  | updateEnd {i : Nat} (hc : w.clock = .update i) (hi : NPROC ≤ i) :
      Step w .clock { w with clock := .idle }
  | wakeup {ch : Chan} {q : ProcId} (hf : w.lock q = none) (hch : ∀ r, ch ≠ .proc r) :
      Step w (.wakeup ch q) (w.setProc q ((w.procs q).wakeup ch))
  | setMode (m : SchedMode) : Step w (.setMode m) { w with mode := m }
  | setPriority {q : ProcId} (hf : w.lock q = none) (priority : Int) :
      Step w (.setPriority q priority) (w.setProc q { w.procs q with priority := priority })

theorem some_of_ite {b : Prop} [Decidable b] {x : World} (h : (if b then some x else none) = some w') :
    b ∧ x = w' := by
  simpa using h

theorem free_of_ite {o : Option Nat} {x : Option World}
    (h : (if o.isSome then none else x) = some w') : o = none ∧ x = some w' := by
  simpa using h

theorem schedStep_cases (h : schedStep w c = some w') : SchedSection w c w' := by
  unfold schedStep at h
  cases hc : w.cpu c with
  | run p => simp [hc] at h
  | switched p =>
    simp only [hc, Option.some.injEq] at h
    exact h ▸ .back hc
  | scan m i o =>
    simp only [hc] at h
    split at h
    case isTrue hi =>
      obtain ⟨hf, hx⟩ := free_of_ite h
      split at hx
      case isTrue hr =>
        split at hx
        case isTrue hm =>
          subst hm
          cases hx; exact .first hc hf hr.1
        case isFalse hm =>
          cases o with
          | none => cases hx; exact .choose hc hm hf hr.1
          | some q => cases hx; exact .rechoose hc hm hf hr.1
      case isFalse hr =>
        cases hx; exact .skip hc hf fun hs => by simpa [hs] using hr
    case isFalse hi =>
      cases o with
      | some q => cases h; exact .last hc
      | none => cases h; exact .idle hc (by omega)

theorem proceed_cases {ok : Bool} (h : proceed w c p ok = some w') : Section w c p w' := by
  unfold proceed at h
  cases hpc : w.pc p with simp only [hpc] at h
  | user => simp at h
  | forkret => cases h; exact .forkret hpc
  | yielded k => cases h; exact .yielded hpc
  | forkAlloc i =>
    split at h
    case isTrue hi =>
      obtain ⟨hf, h⟩ := free_of_ite h
      split at h
      case isTrue hu => cases h; exact .forkAlloc hpc hf hu ok
      case isFalse => cases h; exact .forkNext hpc
    case isFalse => cases h; exact .forkFull hpc
  | forkParent np =>
    obtain ⟨hw, rfl⟩ := some_of_ite h
    exact .forkParent hpc hw
  | forkReady np =>
    obtain ⟨hf, h⟩ := free_of_ite h
    cases h
    exact .forkReady hpc hf
  | waitLock =>
    obtain ⟨hw, rfl⟩ := some_of_ite h
    exact .waitLock hpc hw
  | waitScan i b =>
    split at h
    case isTrue hi =>
      split at h
      case isTrue hq =>
        obtain ⟨hf, h⟩ := free_of_ite h
        split at h
        case isTrue hz =>
          split at h
          case isTrue => cases h; exact .waitCopyout hpc
          case isFalse => cases h; exact .reap hpc hf hq hz
        case isFalse hs => cases h; exact .waitAlive hpc hf hq hs
      case isFalse hq => cases h; exact .waitOther hpc hq
    case isFalse hi => cases h; exact .waitEnd hpc (by omega)
  | waitKilled b =>
    split at h
    case isTrue => cases h; exact .waitGiveUp hpc
    case isFalse =>
      split at h
      case isTrue => simp at h
      case isFalse =>
        split at h
        case isTrue => cases h; exact .waitGiveUp hpc
        case isFalse => cases h; exact .waitStay hpc
  | waitUnlock ret => cases h; exact .waitUnlock hpc
  | waitSleepLock =>
    obtain ⟨hf, h⟩ := free_of_ite h
    cases h
    exact .waitSleepLock hpc hf
  | waitSleepUnlock => cases h; exact .waitSleepUnlock hpc
  | waitSleepSched => cases h; exact .waitSleepSched hpc
  | waitWake => cases h; exact .waitWake hpc
  | exitLock status =>
    obtain ⟨hw, rfl⟩ := some_of_ite h
    exact .exitLock hpc hw
  | exitTime status => cases h; exact .exitTime hpc
  | exitWaiting status => cases h; exact .exitWaiting hpc
  | exitReparent status i =>
    split at h
    case isTrue hi =>
      split at h
      case isTrue hq => cases h; exact .reparent hpc hq
      case isFalse hq => cases h; exact .reparentNext hpc hq
    case isFalse hi => cases h; exact .reparentEnd hpc (by omega)
  | exitParent status =>
    cases hp : (w.procs p).parent with simp only [hp] at h
    | some pp => cases h; exact .exitParent hpc hp
    | none => cases h; exact .exitOrphan hpc hp
  | exitZombie status =>
    obtain ⟨hf, h⟩ := free_of_ite h
    cases h
    exact .exitZombie hpc hf
  | exitUnlock => cases h; exact .exitUnlock hpc
  | exitSched => cases h; exact .exitSched hpc
  | wakeup ch i k =>
    split at h
    case isTrue hi =>
      split at h
      case isTrue he =>
        subst he
        cases h; exact .wakeupSelf hpc
      case isFalse hne =>
        obtain ⟨hf, h⟩ := free_of_ite h
        cases h
        exact .wakeup hpc hne hf
    case isFalse hi => cases h; exact .wakeupEnd hpc (by omega)
  | kill pid i =>
    split at h
    case isTrue hi =>
      obtain ⟨hf, h⟩ := free_of_ite h
      split at h
      case isTrue => cases h; exact .kill hpc hf
      case isFalse => cases h; exact .killNext hpc
    case isFalse => cases h; exact .killEnd hpc
  | sleepWake => cases h; exact .sleepWake hpc

theorem procStep_cases {a : Choice} (h : procStep w c p a = some w') : Section w c p w' := by
  unfold procStep at h
  cases a with
  | go ok => exact proceed_cases h
  | fork =>
    simp only at h
    obtain ⟨hpc, rfl⟩ := some_of_ite h
    exact .fork hpc
  | wait addr =>
    simp only at h
    obtain ⟨hpc, rfl⟩ := some_of_ite h
    exact .wait hpc addr
  | exit status =>
    simp only at h
    obtain ⟨hpc, rfl⟩ := some_of_ite h
    exact .exit hpc.1 hpc.2 status
  | kill pid =>
    simp only at h
    obtain ⟨hpc, rfl⟩ := some_of_ite h
    exact .callKill hpc pid
  | sleep ch =>
    cases ch with simp only at h
    | proc q => simp at h
    | ticks =>
      obtain ⟨hpc, rfl⟩ := some_of_ite h
      exact .sleep hpc.1 hpc.2 (by simp)
    | obj n =>
      obtain ⟨hpc, rfl⟩ := some_of_ite h
      exact .sleep hpc.1 hpc.2 (by simp)
  | yield =>
    simp only at h
    obtain ⟨hpc, rfl⟩ := some_of_ite h
    exact .yield hpc.1 hpc.2

theorem next_cases (h : next w l = some w') : Step w l w' := by
  unfold next at h
  cases l with
  | sched c =>
    simp only at h
    split at h
    case isTrue => exact .sched (schedStep_cases h)
    case isFalse => simp at h
  | proc c a =>
    simp only at h
    split at h
    case isTrue =>
      cases hc : w.cpu c with simp only [hc] at h
      | run p => exact .proc hc (procStep_cases h)
      | scan m i o => simp at h
      | switched p => simp at h
    case isFalse => simp at h
  | clock =>
    unfold clockStep at h
    cases hc : w.clock with simp only [hc] at h
    | idle =>
      split at h
      case isTrue => cases h; exact .tick hc
      case isFalse => simp at h
    | update i =>
      split at h
      case isTrue hi =>
        obtain ⟨hf, h⟩ := free_of_ite h
        cases h
        exact .update hc hf
      case isFalse hi => cases h; exact .updateEnd hc (by omega)
  | wakeup ch q =>
    cases ch with simp only at h
    | proc r => simp at h
    | ticks =>
      obtain ⟨hf, h⟩ := free_of_ite h
      cases h
      exact .wakeup hf (by simp)
    | obj n =>
      obtain ⟨hf, h⟩ := free_of_ite h
      cases h
      exact .wakeup hf (by simp)
  | setMode m => cases h; exact .setMode m
  | setPriority q priority =>
    simp only at h
    obtain ⟨hf, h⟩ := free_of_ite h
    cases h
    exact .setPriority hf priority

/-- A section moves its own process, and fork the new one. -/
theorem section_pc (h : Section w c p w') (hq : q ≠ p) (hs : (w.procs q).state ≠ .unused) :
    w'.pc q = w.pc q := by
  cases h with
  | forkAlloc _ _ hu ok =>
    have hne : q ≠ _ := fun h => hs (h ▸ hu)
    cases ok <;> simp [forkAt, hq, hne]
  | _ =>
    simp [dropOwn, takeWait, dropWait, waitAt, waitReturn, swtch, becomeZombie, reapAt, exitAt, hq]

theorem section_waits (h : Section w c p w') (hq : q ≠ p) : w'.waits q = w.waits q := by
  cases h with
  | wait | waitUnlock | reap => exact (setWaits_waits ..).trans (if_neg hq)
  | forkAlloc _ _ _ ok => cases ok <;> rfl
  | _ => rfl

theorem section_ident (h : Section w c p w') (hs : (w.procs q).state ≠ .unused) :
    w'.hist.ident q = w.hist.ident q := by
  cases h with
  | forkAlloc _ _ hu ok =>
    have hne : q ≠ _ := fun h => hs (h ▸ hu)
    cases ok with
    | true => rw [forkAt_ident, if_neg hne]
    | false => rfl
  | _ => rfl

end Xv6.Sections
