import Xv6.Sections.ReadyQueue
import Xv6.Sections.RoundRobin

set_option maxRecDepth 8192

namespace Xv6.Sections

open Xv6.Framework Xv6.Process

variable {w w' : World} {c : Nat} {p q i j : ProcId} {l : Label} {tr : List (Event World Label)}
  {o : Option ProcId} {s : ProcState}

def ready (s : ProcState) : Bool := decide (s = .running) || decide (s = .runnable)

/-- A step makes process q RUNNABLE that was asleep or in fork. -/
def readies (q : ProcId) (e : Event World Label) : Bool :=
  dormant (e.pre.procs q).state && decide ((e.post.procs q).state = .runnable)

def passed (w : World) (q : ProcId) : Bool :=
  match w.cpu 0 with
  | .scan .fcfs i _ => decide (q.val < i)
  | _ => false

/-- What FCFS needs of forks and wake-ups: a new process is created in a later tick and with a
larger pid than all that are in the table, no process becomes RUNNABLE in a slot that the scan
has passed, and none does that is older than all that are RUNNING or RUNNABLE. -/
structure Orderly (e : Event World Label) : Prop where
  created : ∀ q, allocates q e = true → ∀ i, (e.pre.procs i).state ≠ .unused →
    (e.pre.procs i).ctime < e.pre.ticks ∧ (e.pre.procs i).pid < e.pre.nextpid
  ahead : ∀ q, readies q e = true → passed e.pre q = false
  younger : ∀ q, readies q e = true → e.pre.mode = .fcfs → ∀ i, ready (e.pre.procs i).state = true →
    ∃ j, ready (e.pre.procs j).state = true ∧ (e.pre.procs j).ctime < (e.pre.procs q).ctime

instance (e : Event World Label) : Decidable (Orderly e) :=
  decidable_of_iff
    ((∀ q, allocates q e = true → ∀ i, (e.pre.procs i).state ≠ .unused →
      (e.pre.procs i).ctime < e.pre.ticks ∧ (e.pre.procs i).pid < e.pre.nextpid) ∧
    (∀ q, readies q e = true → passed e.pre q = false) ∧
    (∀ q, readies q e = true → e.pre.mode = .fcfs → ∀ i, ready (e.pre.procs i).state = true →
      ∃ j, ready (e.pre.procs j).state = true ∧ (e.pre.procs j).ctime < (e.pre.procs q).ctime))
    ⟨fun h => ⟨h.1, h.2.1, h.2.2⟩, fun h => ⟨h.created, h.ahead, h.younger⟩⟩

/-- One slot of the FCFS scan, or its end. -/
inductive FcfsScan (w : World) (c : Nat) (i : Nat) (o : Option ProcId) : World → Prop
  | choose {p : ProcId} {w' : World} (hi : p.val = i) (hr : (w.procs p).state = .runnable)
      (hlt : ∀ q, o = some q → (w.procs p).ctime < (w.procs q).ctime)
      (hc : w'.cpu c = .scan .fcfs (i + 1) (some p)) (hp : w'.procs = w.procs) :
      FcfsScan w c i o w'
  | skip {p : ProcId} {w' : World} (hi : p.val = i)
      (hle : (w.procs p).state = .runnable →
        ∃ q, o = some q ∧ (w.procs q).ctime ≤ (w.procs p).ctime)
      (hc : w'.cpu c = .scan .fcfs (i + 1) o) (hp : w'.procs = w.procs) : FcfsScan w c i o w'
  | last {p : ProcId} (hi : NPROC ≤ i) (ho : o = some p) : FcfsScan w c i o (dispatch w c p)
  | idle {w' : World} (hc : w'.cpu c = .scan w.mode 0 none) (hp : w'.procs = w.procs) :
      FcfsScan w c i o w'

/-- Process i was created before j. -/
def Before (w : World) (i j : ProcId) : Prop :=
  (w.procs i).ctime < (w.procs j).ctime ∧ (w.procs i).pid < (w.procs j).pid

theorem Kept.before (hi : Kept w w' i) (hj : Kept w w' j) (h : Before w i j) :
    Before w' i j := by
  unfold Before
  rw [hi.ctime, hj.ctime, hi.pid, hj.pid]
  exact h

theorem Entered.allocates (he : Entered w w' i) : allocates i ⟨w, l, w'⟩ = true := by
  simp [Sections.allocates, he.free, he.used]

theorem Entered.after (he : Entered w w' j) (hi : Kept w w' i) (ho : Orderly ⟨w, l, w'⟩) :
    Before w' i j := by
  unfold Before
  rw [hi.ctime, he.ctime, hi.pid, he.pid]
  exact ho.created j he.allocates i hi.live

/-- The slots that the FCFS scan of CPU 0 has passed hold no RUNNABLE process older than the
chosen one. -/
def Scanned (w : World) : Prop :=
  ∀ i o, w.cpu 0 = .scan .fcfs i o → ∀ j : ProcId, (w.procs j).state = .runnable → j.val < i →
    ∃ q, o = some q ∧ (w.procs q).ctime ≤ (w.procs j).ctime

theorem kept_of_alive (hl : Locks w) (h : Step w l w') (hi : alive (w.procs i).state = true) :
    Kept w w' i := by
  have hp := alive_step hl h hi
  refine (record_step hl h fun hu => ?_).resolve_right fun he => ?_
  · rw [hu] at hp
    cases hp
  · rw [he.1.free] at hi
    cases hi

/-- A step outside the scan keeps the keys of the slots that it has passed. -/
theorem Scanned.keep (hs : Scanned w) (hl : Locks w) (hsolo : Solo w) (hstep : Step w l w')
    (ho : Orderly ⟨w, l, w'⟩) (hcpu : w'.cpu 0 = w.cpu 0 ∨ ∃ r, w'.cpu 0 = .switched r) :
    Scanned w' := by
  intro i o hc j hj hlt
  rcases hcpu with hcpu | ⟨r, hcpu⟩
  · rw [hcpu] at hc
    rcases runnable_origin hl hstep hj with hold | hdorm | ⟨-, c, hrun, hsw⟩
    · obtain ⟨q, rfl, hle⟩ := hs i o hc j hold hlt
      have hq := (hl.chosen 0 _ i q hc).2
      have hkq : Kept w w' q := kept_of_alive hl hstep (by rw [hq]; rfl)
      have hkj : Kept w w' j := kept_of_alive hl hstep (by rw [hold]; rfl)
      exact ⟨q, rfl, by rw [hkq.ctime, hkj.ctime]; exact hle⟩
    · have hle := ho.ahead j (by simp [readies, hdorm, hj])
      simp only [passed, hc, decide_eq_false_iff_not] at hle
      exact absurd hlt hle
    · obtain rfl := hsolo.cpu0 hrun
      rw [hcpu, hc] at hsw
      cases hsw
  · rw [hcpu] at hc
    cases hc

theorem Scanned.scan (hs : Scanned w) {i : Nat}
    (hc : w.cpu 0 = .scan .fcfs i o) (h : FcfsScan w 0 i o w') : Scanned w' := by
  intro i' o' hc' j hj hlt
  cases h with
  | choose hi hr hless hcp hp =>
    rw [hcp] at hc'
    injection hc' with _ h1 h2
    subst h1 h2
    rw [hp] at hj ⊢
    by_cases hji : j.val = i
    · obtain rfl : _ = j := Fin.ext (hi.trans hji.symm)
      exact ⟨_, rfl, Nat.le_refl _⟩
    · obtain ⟨q, rfl, hle⟩ := hs i o hc j hj (by omega)
      exact ⟨_, rfl, Nat.le_trans (Nat.le_of_lt (hless q rfl)) hle⟩
  | skip hi hle hcp hp =>
    rw [hcp] at hc'
    injection hc' with _ h1 h2
    subst h1 h2
    rw [hp] at hj ⊢
    by_cases hji : j.val = i
    · obtain rfl : _ = j := Fin.ext (hi.trans hji.symm)
      exact hle hj
    · exact hs i o hc j hj (by omega)
  | last => simp [dispatch] at hc'
  | idle hcp hp =>
    rw [hcp] at hc'
    injection hc' with _ h1 h2
    omega

theorem Scanned.other (h : SchedSection w 0 w') (hne : ∀ i o, w.cpu 0 ≠ .scan .fcfs i o) :
    Scanned w' := by
  intro i o hc j _ hlt
  have hkeep {m : SchedMode} {i' : Nat} {o' : Option ProcId} (hc' : w.cpu 0 = .scan m i' o') :
      m ≠ .fcfs := by
    rintro rfl
    exact hne i' o' hc'
  cases h with
  | back | idle =>
    simp only [setCpu_cpu, if_true, Cpu.scan.injEq] at hc
    omega
  | choose hc' | rechoose hc' | skip hc' =>
    simp only [setCpu_cpu, if_true, Cpu.scan.injEq] at hc
    exact absurd hc.1 (hkeep hc')
  | first | last => simp [dispatch] at hc

end Xv6.Sections
