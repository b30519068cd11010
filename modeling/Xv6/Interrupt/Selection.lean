import Xv6.Interrupt.Model

set_option maxRecDepth 8192

namespace Xv6.Interrupt

open Xv6.Framework Xv6.Process

variable {w w' u : World} {c i : Nat} {m : SchedMode} {p q j : ProcId} {o locked : Option ProcId}
  {sn : List (ProcId × Proc)} {tr : List (Event World ScanLabel)}

/-- CPU c executes the scan of scheduler(), or everything else changes. -/
inductive ScanLabel
  | step
  | others (u : World)

/-- What the other CPUs, and interrupt handlers on CPU c, can make of the world: anything, but
for CPU c itself, the locks that it holds and the slots that these protect. -/
def interfere (w : World) (c : Nat) (u : World) : World :=
  { u with
    procs := fun p => if w.lock (.proc p) = some c then w.procs p else u.procs p
    lock := fun l =>
      if w.lock l = some c then some c else if u.lock l = some c then none else u.lock l
    cpu := fun d => if d = c then w.cpu c else u.cpu d }

def SchedPc.scanning : SchedPc → Bool
  | .scan _ _ _ | .choose _ _ _ | .unlock _ _ _ _ => true
  | _ => false

def scanNext (c : Nat) (w : World) : ScanLabel → Option World
  | .step => match (w.cpu c).run with
    | ⟨.sched pc, []⟩ => if pc.scanning then schedule w c pc else none
    | _ => none
  | .others u => some (interfere w c u)

/-- The slot that is examined in this step, if it is RUNNABLE, with its record. -/
def examined (c : Nat) (e : Event World ScanLabel) : Option (ProcId × Proc) :=
  match e.label, (e.pre.cpu c).run with
  | .step, ⟨.sched (.choose _ p _), []⟩ =>
    if (e.pre.procs p).state = .runnable then some (p, e.pre.procs p) else none
  | _, _ => none

def seen (c : Nat) (tr : List (Event World ScanLabel)) : List (ProcId × Proc) :=
  tr.filterMap (examined c)

/-- Process p with record x is chosen over process j with record y: the first slot in round
robin, and otherwise the lowest slot with the smallest creation time or the largest priority. -/
def Beats (m : SchedMode) (p : ProcId) (x : Proc) (j : ProcId) (y : Proc) : Prop :=
  match m with
  | .roundRobin => p ≤ j
  | .fcfs => x.ctime < y.ctime ∨ x.ctime = y.ctime ∧ p ≤ j
  | .priority => y.priority < x.priority ∨ y.priority = x.priority ∧ p ≤ j

/-- CPU c is in the scan of mode m, which has come to slot i with the choice o, and holds the
lock of one more slot if locked says so. -/
structure Scan (w : World) (c : Nat) (m : SchedMode) (i : Nat) (o locked : Option ProcId)
    (sn : List (ProcId × Proc)) : Prop where
  holds : ∀ p, w.lock (.proc p) = some c ↔ o = some p ∨ locked = some p
  apart : ∀ p, o = some p → locked ≠ some p
  noff : (w.cpu c).noff = o.toList.length + locked.toList.length
  intr : 0 < (w.cpu c).noff → (w.cpu c).intr = false
  below : ∀ s ∈ sn, s.1.val < i
  nothing : o = none → sn = []
  chosen : ∀ p, o = some p → p.val < i ∧ (w.procs p).state = .runnable ∧
    ∀ s ∈ sn, Beats m p (w.procs p) s.1 s.2

/-- The same at each statement of the scan, and at its two ends. -/
inductive Stage (w : World) (c : Nat) (m : SchedMode) (sn : List (ProcId × Proc)) :
    SchedPc → Prop
  | scan {i : Nat} {o : Option ProcId} (hs : Scan w c m i o none sn)
      (hr : m = .roundRobin → o = none) : Stage w c m sn (.scan m i o)
  | choose {p : ProcId} {o : Option ProcId} (hs : Scan w c m p o (some p) sn)
      (hr : m = .roundRobin → o = none) : Stage w c m sn (.choose m p o)
  | unlock {q : ProcId} {i : Nat} {o : Option ProcId} (hs : Scan w c m i o (some q) sn)
      (hr : m = .roundRobin → o = none) : Stage w c m sn (.unlock q m i o)
  | chosen {p : ProcId} {i : Nat} (hs : Scan w c m i (some p) none sn) :
      Stage w c m sn (.setRunning p)
  | nothing {i : Nat} (hs : Scan w c m i none none sn) : Stage w c m sn .loop

theorem Scan.congr (hs : Scan w c m i o locked sn) (h1 : w'.procs = w.procs)
    (h2 : w'.lock = w.lock) (h3 : (w'.cpu c).noff = (w.cpu c).noff)
    (h4 : (w'.cpu c).intr = (w.cpu c).intr) : Scan w' c m i o locked sn := by
  refine ⟨?_, hs.apart, ?_, ?_, hs.below, hs.nothing, ?_⟩
  · rw [h2]
    exact hs.holds
  · rw [h3]
    exact hs.noff
  · rw [h3, h4]
    exact hs.intr
  · rw [h1]
    exact hs.chosen

theorem Scan.resume (hs : Scan w c m i o locked sn) (pc : SchedPc) :
    Scan (w.resume c pc) c m i o locked sn :=
  hs.congr rfl rfl (by simp [World.resume]) (by simp [World.resume])

theorem Scan.acquire (hs : Scan w c m p o none sn) {run : Context}
    (h : acquireAt w c (.proc p) run = some w') :
    Scan w' c m p o (some p) sn ∧ (w'.cpu c).run = run := by
  unfold acquireAt at h
  split at h
  case isFalse => cases h
  case isTrue hf =>
    cases h
    have hno : o ≠ some p := by
      intro ho
      rw [(hs.holds p).mpr (.inl ho)] at hf
      cases hf
    refine ⟨⟨fun q => ?_, fun q hq hp => ?_, ?_, fun _ => ?_, hs.below, hs.nothing, hs.chosen⟩,
      by simp⟩
    · have hq := hs.holds q
      by_cases hqp : q = p
      · simp [hqp]
      · simpa [hqp, Ne.symm hqp] using hq
    · exact hno (hq.trans hp.symm)
    · simpa [Cpu.pushOff] using hs.noff
    · simp [Cpu.pushOff]

theorem Scan.release (hs : Scan w c m i o (some q) sn) {run : Context}
    (h : releaseAt w c (.proc q) run = some w') :
    Scan w' c m i o none sn ∧ (w'.cpu c).run = run := by
  unfold releaseAt at h
  split at h
  case isFalse => cases h
  case isTrue hf =>
    cases h
    have hnoff := hs.noff
    refine ⟨⟨fun p => ?_, fun _ _ => by simp, ?_, fun hpos => ?_, hs.below, hs.nothing,
      hs.chosen⟩, by simp⟩
    · have hp := hs.holds p
      have ha := hs.apart p
      by_cases hpq : p = q
      · subst hpq
        simp
        exact fun ho => ha ho rfl
      · simpa [hpq, Ne.symm hpq] using hp
    · simp [Cpu.popOff, hnoff]
    · simp only [setCpu_cpu, if_true, Cpu.popOff] at hpos ⊢
      simp
      omega

theorem Scan.interfere (hs : Scan w c m i o locked sn) (u : World) :
    Scan (interfere w c u) c m i o locked sn where
  holds p := by
    rw [← hs.holds p]
    simp only [Interrupt.interfere]
    split
    case isTrue h => simp [h]
    case isFalse h => split <;> simp_all
  apart := hs.apart
  noff := by simpa [Interrupt.interfere] using hs.noff
  intr := by simpa [Interrupt.interfere] using hs.intr
  below := hs.below
  nothing := hs.nothing
  chosen p hp := by
    have hl := (hs.holds p).mpr (.inl hp)
    simpa [Interrupt.interfere, hl] using hs.chosen p hp

theorem Beats.self (m : SchedMode) (p : ProcId) (x : Proc) : Beats m p x p x := by
  cases m <;> simp [Beats]

/-- A slot that the scan prefers beats what the old choice has beaten. -/
theorem Beats.trans_prefers {y : Proc} (hm : m ≠ .roundRobin)
    (hp : prefers w.procs m p (some q) = true) (h : Beats m q (w.procs q) j y) :
    Beats m p (w.procs p) j y := by
  cases m with
  | roundRobin => exact absurd rfl hm
  | fcfs =>
    simp only [prefers, decide_eq_true_eq] at hp
    simp only [Beats] at h ⊢
    omega
  | priority =>
    simp only [prefers, decide_eq_true_eq] at hp
    simp only [Beats] at h ⊢
    omega

/-- A slot that the scan does not prefer is beaten by the choice, which is in a lower slot. -/
theorem Beats.of_not_prefers (hm : m ≠ .roundRobin) (hlt : q < p)
    (hp : prefers w.procs m p (some q) = false) : Beats m q (w.procs q) p (w.procs p) := by
  have hle : q ≤ p := Fin.le_of_lt hlt
  cases m with
  | roundRobin => exact absurd rfl hm
  | fcfs =>
    simp only [prefers, decide_eq_false_iff_not, Nat.not_lt] at hp
    exact (Nat.lt_or_eq_of_le hp).imp_right fun h => ⟨h, hle⟩
  | priority =>
    simp only [prefers, decide_eq_false_iff_not, Int.not_lt] at hp
    exact (Int.lt_or_eq_of_le hp).imp_right fun h => ⟨h, hle⟩

/-- What examining slot p adds to the slots that were seen RUNNABLE. -/
def saw (w : World) (p : ProcId) : List (ProcId × Proc) :=
  if (w.procs p).state = .runnable then [(p, w.procs p)] else []

/-- The slot p whose lock is held becomes the choice. -/
theorem Scan.take (hs : Scan w c m p o (some p) sn) (hr : (w.procs p).state = .runnable)
    (hb : ∀ q, o = some q → m ≠ .roundRobin ∧ prefers w.procs m p (some q) = true) :
    Scan w c m (p + 1) (some p) o (sn ++ saw w p) where
  holds q := by rw [hs.holds q, or_comm]
  apart q hq ho := hs.apart q ho hq
  noff := by rw [hs.noff, Nat.add_comm]
  intr := hs.intr
  below s h := by
    rw [saw, if_pos hr, List.mem_append, List.mem_singleton] at h
    rcases h with h | rfl
    · exact Nat.lt_succ_of_lt (hs.below s h)
    · exact Nat.lt_succ_self _
  nothing h := by cases h
  chosen q hq := by
    cases hq
    refine ⟨Nat.lt_succ_self _, hr, fun s h => ?_⟩
    rw [saw, if_pos hr, List.mem_append, List.mem_singleton] at h
    rcases h with h | rfl
    · cases o with
      | none =>
        rw [hs.nothing rfl] at h
        cases h
      | some q =>
        obtain ⟨hm, hp⟩ := hb q rfl
        exact ((hs.chosen q rfl).2.2 s h).trans_prefers hm hp
    · exact .self m _ _

/-- The choice stays, and the lock of slot p is to be released. -/
theorem Scan.pass (hs : Scan w c m p o (some p) sn) (hr : m = .roundRobin → o = none)
    (hb : (w.procs p).state = .runnable → prefers w.procs m p o = false) :
    Scan w c m (p + 1) o (some p) (sn ++ saw w p) where
  holds := hs.holds
  apart := hs.apart
  noff := hs.noff
  intr := hs.intr
  below s h := by
    rw [List.mem_append] at h
    rcases h with h | h
    · exact Nat.lt_succ_of_lt (hs.below s h)
    · unfold saw at h
      split at h
      · rw [List.mem_singleton.mp h]
        exact Nat.lt_succ_self _
      · cases h
  nothing ho := by
    subst ho
    unfold saw
    split
    case isTrue h => exact absurd (hb h) (by simp [prefers])
    case isFalse => rw [hs.nothing rfl]; rfl
  chosen q hq := by
    subst hq
    obtain ⟨hlt, hrun, hbeat⟩ := hs.chosen q rfl
    refine ⟨Nat.lt_succ_of_lt hlt, hrun, fun s h => ?_⟩
    rw [List.mem_append] at h
    rcases h with h | h
    · exact hbeat s h
    · unfold saw at h
      split at h
      case isTrue h' =>
        rw [List.mem_singleton.mp h]
        exact .of_not_prefers (fun hm => by cases hr hm) hlt (hb h')
      case isFalse => cases h

/-- The test of the slot that CPU c has just locked. -/
theorem stage_choose (hs : Scan w c m p o (some p) sn) (hr : m = .roundRobin → o = none) :
    Stage (w.resume c (chooseNext w m p o)) c m (sn ++ saw w p) (chooseNext w m p o) := by
  generalize hw : w.resume c (chooseNext w m p o) = w'
  have hkeep {i : Nat} {o l : Option ProcId} {sn : List (ProcId × Proc)}
      (h : Scan w c m i o l sn) : Scan w' c m i o l sn := hw ▸ h.resume _
  unfold chooseNext
  split
  case isTrue h =>
    by_cases hm : m = .roundRobin
    · obtain rfl := hr hm
      rw [if_pos hm]
      exact .chosen (hkeep (hs.take h.1 fun q hq => by cases hq))
    · rw [if_neg hm]
      have htake := hkeep (hs.take h.1 fun q hq => ⟨hm, hq ▸ h.2⟩)
      cases o with
      | none => exact .scan htake fun h => absurd h hm
      | some q => exact .unlock htake fun h => absurd h hm
  case isFalse h =>
    refine .unlock (hkeep (hs.pass hr fun hrun => ?_)) hr
    rw [Bool.eq_false_iff]
    exact fun hp => h ⟨hrun, hp⟩

/-- What a run of the scan has to keep: the stage, with the slots seen RUNNABLE so far. -/
def Scanning (c : Nat) (m : SchedMode) (w : World) (sn : List (ProcId × Proc)) : Prop :=
  ∃ pc, (w.cpu c).run = ⟨.sched pc, []⟩ ∧ Stage w c m sn pc

theorem examined_other {pc : SchedPc} (hrun : (w.cpu c).run = ⟨.sched pc, []⟩)
    (h : ∀ m p o, pc ≠ .choose m p o) : examined c ⟨w, .step, w'⟩ = none := by
  simp only [examined, hrun]
  cases pc with
  | choose m p o => exact absurd rfl (h m p o)
  | _ => rfl

theorem examined_choose (hrun : (w.cpu c).run = ⟨.sched (.choose m p o), []⟩) :
    (examined c ⟨w, .step, w'⟩).toList = saw w p := by
  simp only [examined, hrun, saw]
  split <;> rfl

theorem scanning_step (h : Scanning c m w sn) (hn : scanNext c w .step = some w') :
    Scanning c m w' (sn ++ (examined c ⟨w, .step, w'⟩).toList) := by
  obtain ⟨pc, hrun, hst⟩ := h
  simp only [scanNext, hrun] at hn
  cases hst with
  | @scan i o hs hr =>
    simp only [SchedPc.scanning, if_true, schedule] at hn
    rw [examined_other hrun (by simp), Option.toList_none, List.append_nil]
    split at hn
    case isTrue hi =>
      obtain ⟨hs', hrun'⟩ := Scan.acquire hs hn
      exact ⟨_, hrun', .choose hs' hr⟩
    case isFalse =>
      cases o with
      | some p =>
        cases hn
        exact ⟨_, by simp [World.resume], .chosen (hs.resume _)⟩
      | none =>
        cases hn
        exact ⟨_, by simp [World.resume], .nothing (hs.resume _)⟩
  | choose hs hr =>
    cases hn
    rw [examined_choose hrun]
    exact ⟨_, by simp [World.resume], stage_choose hs hr⟩
  | unlock hs hr =>
    rw [examined_other hrun (by simp), Option.toList_none, List.append_nil]
    obtain ⟨hs', hrun'⟩ := hs.release hn
    exact ⟨_, hrun', .scan hs' hr⟩
  | chosen => cases hn
  | nothing => cases hn

theorem scanning_others (h : Scanning c m w sn) (u : World) :
    Scanning c m (interfere w c u) sn := by
  obtain ⟨pc, hrun, hst⟩ := h
  refine ⟨pc, by simpa [interfere] using hrun, ?_⟩
  cases hst with
  | scan hs hr => exact .scan (hs.interfere u) hr
  | choose hs hr => exact .choose (hs.interfere u) hr
  | unlock hs hr => exact .unlock (hs.interfere u) hr
  | chosen hs => exact .chosen (hs.interfere u)
  | nothing hs => exact .nothing (hs.interfere u)

theorem scanning_run (h : Path (scanNext c) w tr w') (hs : Scanning c m w []) :
    Scanning c m w' (seen c tr) := by
  induction h with
  | nil => exact hs
  | @snoc t v tr a _ hn ih =>
    cases a with
    | step =>
      have hstep := scanning_step ih hn
      cases he : examined c ⟨t, .step, v⟩ with
      | none => simpa [seen, he] using hstep
      | some x => simpa [seen, he] using hstep
    | others u =>
      cases hn
      have hno : examined c ⟨t, .others u, interfere t c u⟩ = none := rfl
      simpa [seen, hno] using scanning_others ih u

theorem Scan.intr_off (hs : Scan w c m i o locked sn) (h : w.lock (.proc p) = some c) :
    (w.cpu c).intr = false := by
  apply hs.intr
  rw [hs.noff]
  rcases (hs.holds p).mp h with rfl | rfl <;> simp

theorem Scanning.intr_off (hs : Scanning c m w sn) (h : w.lock (.proc p) = some c) :
    (w.cpu c).intr = false := by
  obtain ⟨pc, -, hst⟩ := hs
  cases hst with
  | scan hs | choose hs | unlock hs | chosen hs | nothing hs => exact hs.intr_off h

/-- CPU c has taken the lock of slot p in one of the steps, and has kept it since with
interrupts off. -/
def TakenSince (c : Nat) (p : ProcId) (tr : List (Event World ScanLabel)) : Prop :=
  ∃ l a r, tr = l ++ a :: r ∧ a.pre.lock (.proc p) ≠ some c ∧
    ∀ e ∈ a :: r, e.post.lock (.proc p) = some c ∧ (e.post.cpu c).intr = false

/-- The state in which scheduler() starts the scan of mode m. -/
structure ScanStart (w : World) (c : Nat) (m : SchedMode) : Prop where
  run : (w.cpu c).run = ⟨.sched (.scan m 0 none), []⟩
  free : ∀ p, w.lock (.proc p) ≠ some c
  noff : (w.cpu c).noff = 0

theorem ScanStart.scanning (hs : ScanStart w c m) : Scanning c m w [] := by
  refine ⟨_, hs.run, .scan ⟨fun p => ?_, by simp, ?_, fun h => ?_, by simp, by simp, by simp⟩
    fun _ => rfl⟩
  · simpa using hs.free p
  · rw [hs.noff]
    rfl
  · rw [hs.noff] at h
    cases h

theorem taken_run (h : Path (scanNext c) w tr w') (hs : ScanStart w c m) :
    ∀ p, w'.lock (.proc p) = some c → TakenSince c p tr := by
  induction h with
  | nil => exact fun p hp => absurd hp (hs.free p)
  | @snoc t v tr a hp hn ih =>
    intro p hv
    have hoff := (scanning_run (hp.snoc hn) hs.scanning).intr_off hv
    by_cases ht : t.lock (.proc p) = some c
    · obtain ⟨l, b, r, rfl, hb, hall⟩ := ih p ht
      refine ⟨l, b, r ++ [⟨t, a, v⟩], by simp, hb, fun e he => ?_⟩
      rw [← List.cons_append, List.mem_append, List.mem_singleton] at he
      rcases he with he | rfl
      · exact hall e he
      · exact ⟨hv, hoff⟩
    · refine ⟨tr, ⟨t, a, v⟩, [], rfl, ht, fun e he => ?_⟩
      rw [List.mem_singleton] at he
      subst he
      exact ⟨hv, hoff⟩

/-- What the scan of scheduler() finds, for every process table and every interference. -/
theorem scan_selects (h : Path (scanNext c) w tr w') (hs : ScanStart w c m) :
    ((w'.cpu c).run = ⟨.sched .loop, []⟩ →
      (∀ p, w'.lock (.proc p) ≠ some c) ∧ seen c tr = []) ∧
    ∀ p, (w'.cpu c).run = ⟨.sched (.setRunning p), []⟩ →
      (w'.procs p).state = .runnable ∧ (∀ q, w'.lock (.proc q) = some c ↔ q = p) ∧
      TakenSince c p tr ∧ ∀ s ∈ seen c tr, Beats m p (w'.procs p) s.1 s.2 := by
  obtain ⟨pc, hrun, hst⟩ := scanning_run h hs.scanning
  refine ⟨fun hend => ?_, fun p hend => ?_⟩
  · rw [hrun] at hend
    cases hend
    cases hst with
    | nothing hs => exact ⟨fun p hp => by simpa using (hs.holds p).mp hp, hs.nothing rfl⟩
  · rw [hrun] at hend
    cases hend
    cases hst with
    | chosen hsc =>
      obtain ⟨-, hr, hb⟩ := hsc.chosen p rfl
      have hl := (hsc.holds p).mpr (.inl rfl)
      refine ⟨hr, fun q => ?_, taken_run h hs p hl, hb⟩
      rw [hsc.holds q]
      simp [eq_comm]

def fcfsStart : World := final next boot [.setMode .fcfs, .exec 0]

/-- A process as old as init becomes RUNNABLE in slot 3 once init is chosen. -/
def tieAhead : List ScanLabel :=
  let u := boot.setProc 3 { Proc.userinit with pid := 2 }
  [.step, .step, .others u] ++ List.replicate 190 .step

theorem scan_selects_tieAhead :
    ((final (scanNext 0) fcfsStart tieAhead).cpu 0).run = ⟨.sched (.setRunning 0), []⟩ ∧
      (seen 0 (events (scanNext 0) fcfsStart tieAhead)).map Prod.fst = [0, 3] ∧
      ∀ s ∈ seen 0 (events (scanNext 0) fcfsStart tieAhead),
        Beats .fcfs 0 ((final (scanNext 0) fcfsStart tieAhead).procs 0) s.1 s.2 := by
  have hp : Path (scanNext 0) fcfsStart _ (final (scanNext 0) fcfsStart tieAhead) :=
    path_final (by decide +kernel)
  have hrun : ((final (scanNext 0) fcfsStart tieAhead).cpu 0).run =
      ⟨.sched (.setRunning 0), []⟩ := by decide +kernel
  have hs : ScanStart fcfsStart 0 .fcfs := ⟨by decide, by decide, by decide⟩
  exact ⟨hrun, by decide +kernel, ((scan_selects hp hs).2 0 hrun).2.2.2⟩

end Xv6.Interrupt
