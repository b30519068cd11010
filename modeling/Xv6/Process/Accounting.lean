import Xv6.Process.Steps
import Mathlib.Data.List.Perm.Basic

set_option maxRecDepth 8192

namespace Xv6.Process.Calls

open Xv6.Framework

variable {k k' : Kernel} {p : Proc} {q i : ProcId} {b : Bench} {l : Ledger}

def sumTurnaround (es : List Entry) : Nat := (es.map Entry.turnaround).sum

def sumWaiting (es : List Entry) : Nat := (es.map Entry.waiting).sum

def idents (es : List Entry) : List Nat := es.map Entry.ident

/-- A printed report averages over exactly the counted forks, each of them once. -/
structure Audited (r : Report) : Prop where
  once : (idents r.done).Nodup
  complete : (idents r.done).Perm r.counted
  turnaround : r.avgTurnaround =
    int32 ((sumTurnaround r.done % 2 ^ 64 / r.counted.length : Nat) : Int)
  waiting : r.avgWaiting = int32 ((sumWaiting r.done % 2 ^ 64 / r.counted.length : Nat) : Int)

/-- The counters agree with the forks counted and the exits accounted for since the last reset,
sums being taken in uint64, and every report so far was right. -/
structure Accounts (k : Kernel) : Prop where
  nonneg : 0 ≤ k.bench.completedBenchmarkProcesses
  le : k.bench.completedBenchmarkProcesses ≤ k.bench.totalBenchmarkProcesses
  total : k.bench.totalBenchmarkProcesses = k.ledger.counted.length
  completed : k.bench.completedBenchmarkProcesses = k.ledger.done.length
  once : (idents k.ledger.done).Nodup
  counted : ∀ x ∈ idents k.ledger.done, x ∈ k.ledger.counted
  turnaround : k.bench.globalTurnaroundTime = sumTurnaround k.ledger.done % 2 ^ 64
  waiting : k.bench.globalWaitingTime = sumWaiting k.ledger.done % 2 ^ 64
  reports : ∀ r ∈ k.console, Audited r

/-- A step that neither lets a stale flag into a new process nor resets the counters under a
live benchmark process, nor overflows them. -/
def Orderly (e : Event Kernel Call) : Prop :=
  match e.label with
  | .fork q _ =>
    if (e.pre.procs q).runsSchedbench then
      e.pre.bench.totalBenchmarkProcesses < 2 ^ 31 - 1
    else ∀ i, firstUnused e.pre.procs = some i → (e.pre.procs i).isBenchmarkProcess = 0
  | .schedstats mode =>
    0 ≤ mode ∧ mode ≤ 2 → ∀ i, Live (e.pre.procs i) → (e.pre.procs i).isBenchmarkProcess = 0
  | _ => True

instance (e : Event Kernel Call) : Decidable (Orderly e) :=
  match e with
  | ⟨_, .fork _ _, _⟩ => inferInstanceAs (Decidable (ite _ _ _))
  | ⟨_, .schedstats _, _⟩ => inferInstanceAs (Decidable (_ → _))
  | ⟨_, .exec _ _, _⟩ | ⟨_, .exit _ _, _⟩ | ⟨_, .wait _ _, _⟩ | ⟨_, .kill _, _⟩
  | ⟨_, .setpriority _ _, _⟩ | ⟨_, .dispatch _, _⟩ | ⟨_, .yield _, _⟩ | ⟨_, .sleep _ _, _⟩
  | ⟨_, .wakeup _, _⟩ | ⟨_, .setkilled _, _⟩ | ⟨_, .setFile _ _ _, _⟩ | ⟨_, .chdir _ _, _⟩
  | ⟨_, .clockintr, _⟩ => isTrue trivial

/-- The counters and the ledger alone. -/
structure Books (b : Bench) (l : Ledger) : Prop where
  total : b.totalBenchmarkProcesses = l.counted.length
  completed : b.completedBenchmarkProcesses = l.done.length
  turnaround : b.globalTurnaroundTime = sumTurnaround l.done % 2 ^ 64
  waiting : b.globalWaitingTime = sumWaiting l.done % 2 ^ 64
  born : ∀ x ∈ l.counted, x < l.born
  distinct : l.counted.Nodup
  once : (idents l.done).Nodup
  counted : ∀ x ∈ idents l.done, x ∈ l.counted
  small : l.counted.length < 2 ^ 31

def Flagged (k : Kernel) (i : ProcId) : Prop :=
  Live (k.procs i) ∧ (k.procs i).isBenchmarkProcess ≠ 0

/-- Every live flagged process is a counted fork that is still open. -/
structure Open (k : Kernel) : Prop where
  counted : ∀ i, Flagged k i → k.ledger.ident i ∈ k.ledger.counted
  pending : ∀ i, Flagged k i → k.ledger.ident i ∉ idents k.ledger.done
  distinct : ∀ i j, Flagged k i → Flagged k j → k.ledger.ident i = k.ledger.ident j → i = j

structure Inv (k : Kernel) : Prop where
  books : Books k.bench k.ledger
  flagged : Open k
  reports : ∀ r ∈ k.console, Audited r

theorem int32_of_small {x : Int} (h0 : 0 ≤ x) (h : x < 2 ^ 31) : int32 x = x := by
  apply Int.bmod_eq_of_le <;> omega

theorem Books.done_le (h : Books b l) : l.done.length ≤ l.counted.length := by
  have hsub : idents l.done ⊆ l.counted := h.counted
  have hle := (List.subperm_of_subset h.once hsub).length_le
  simpa [idents] using hle

theorem Books.zero (l : Ledger) : Books Bench.zero { l with counted := [], done := [] } where
  total := rfl
  completed := rfl
  turnaround := rfl
  waiting := rfl
  born := by simp
  distinct := List.nodup_nil
  once := List.nodup_nil
  counted := by simp [idents]
  small := by simp

theorem Books.close (h : Books b l) {e : Entry} (hc : e.ident ∈ l.counted)
    (hp : e.ident ∉ idents l.done) :
    (idents (l.done ++ [e])).Nodup ∧ (∀ x ∈ idents (l.done ++ [e]), x ∈ l.counted) ∧
      l.done.length + 1 ≤ l.counted.length := by
  have hnd : (idents (l.done ++ [e])).Nodup := by
    have hid : idents (l.done ++ [e]) = idents l.done ++ [e.ident] := by simp [idents]
    rw [hid, List.nodup_append]
    refine ⟨h.once, by simp, ?_⟩
    intro x hx y hy hxy
    rw [List.mem_singleton.mp hy] at hxy
    exact hp (hxy ▸ hx)
  have hsub : ∀ x ∈ idents (l.done ++ [e]), x ∈ l.counted := by
    intro x hx
    simp only [idents, List.map_append, List.map_cons, List.map_nil, List.mem_append,
      List.mem_singleton] at hx
    rcases hx with hx | rfl
    · exact h.counted x hx
    · exact hc
  have hle := (List.subperm_of_subset hnd hsub).length_le
  exact ⟨hnd, hsub, by simpa [idents] using hle⟩

theorem Inv.frame (h : Inv k) (hb : k'.bench = k.bench) (hl : k'.ledger = k.ledger)
    (hc : k'.console = k.console) (hf : ∀ i, Flagged k' i → Flagged k i) : Inv k' := by
  constructor
  · rw [hb, hl]
    exact h.books
  · constructor
    · intro i hi
      rw [hl]
      exact h.flagged.counted i (hf i hi)
    · intro i hi
      rw [hl]
      exact h.flagged.pending i (hf i hi)
    · intro i j hi hj
      rw [hl]
      exact h.flagged.distinct i j (hf i hi) (hf j hj)
  · rw [hc]
    exact h.reports

theorem Mild.flagged (hm : Mild (k.procs i) (k'.procs i)) (h : Flagged k' i) : Flagged k i :=
  ⟨hm.live_iff.mp h.1, by rw [← hm.flag]; exact h.2⟩

/-- Flags after a slot is replaced. -/
theorem flagged_set {j : ProcId} (h : Flagged (k.set i p) j) :
    j = i ∧ Live p ∧ p.isBenchmarkProcess ≠ 0 ∨ j ≠ i ∧ Flagged k j := by
  by_cases hj : j = i
  · subst hj
    left
    simpa [Flagged] using h
  · right
    rw [Flagged, k.set_of_ne p hj] at h
    exact ⟨hj, h⟩

theorem inv_dead (h : Inv k) (hp : ¬ Live p) : Inv (k.set i p) := by
  refine h.frame rfl rfl rfl fun j hj => ?_
  rcases flagged_set hj with ⟨_, hl, _⟩ | ⟨_, hf⟩
  · exact absurd hl hp
  · exact hf

/-- A newborn of a parent other than schedbench in a slot without a stale flag. -/
theorem inv_bear_plain (h : Inv k) (hp : p.isBenchmarkProcess = 0) :
    Inv ((k.bear i).set i p) := by
  have hb := h.books
  have hf (j : ProcId) (hj : Flagged ((k.bear i).set i p) j) :
      Flagged k j ∧ ((k.bear i).set i p).ledger.ident j = k.ledger.ident j := by
    rcases flagged_set hj with ⟨_, _, hn⟩ | ⟨hne, hf⟩
    · exact absurd hp hn
    · exact ⟨hf, Function.update_of_ne hne _ _⟩
  constructor
  · exact ⟨hb.total, hb.completed, hb.turnaround, hb.waiting,
      fun x hx => Nat.lt_succ_of_lt (hb.born x hx), hb.distinct, hb.once, hb.counted, hb.small⟩
  · constructor
    · intro j hj
      rw [(hf j hj).2]
      exact h.flagged.counted j (hf j hj).1
    · intro j hj
      rw [(hf j hj).2]
      exact h.flagged.pending j (hf j hj).1
    · intro j j' hj hj'
      rw [(hf j hj).2, (hf j' hj').2]
      exact h.flagged.distinct j j' (hf j hj).1 (hf j' hj').1
  · exact h.reports

theorem books_countFork (h : Books k.bench k.ledger)
    (ht : k.bench.totalBenchmarkProcesses < 2 ^ 31 - 1) :
    Books (k.countFork.bear i).bench (k.countFork.bear i).ledger where
  total := by
    have hlen := h.total
    simp only [Kernel.countFork, Kernel.bear, List.length_append, List.length_singleton]
    rw [int32_of_small] <;> omega
  completed := h.completed
  turnaround := h.turnaround
  waiting := h.waiting
  born := by
    intro x hx
    simp only [Kernel.countFork, Kernel.bear, List.mem_append, List.mem_singleton] at hx ⊢
    rcases hx with hx | rfl
    · exact Nat.lt_succ_of_lt (h.born x hx)
    · exact Nat.lt_succ_self _
  distinct := by
    simp only [Kernel.countFork, Kernel.bear, List.nodup_append]
    refine ⟨h.distinct, by simp, ?_⟩
    intro x hx y hy hxy
    have hlt := h.born x hx
    rw [List.mem_singleton.mp hy] at hxy
    omega
  once := h.once
  counted := by
    intro x hx
    exact List.mem_append.mpr (.inl (h.counted x hx))
  small := by
    have hlen := h.total
    simp only [Kernel.countFork, Kernel.bear, List.length_append, List.length_singleton]
    omega

/-- A newborn of schedbench is a new open fork. -/
theorem inv_bear_counted (h : Inv k) (ht : k.bench.totalBenchmarkProcesses < 2 ^ 31 - 1) :
    Inv ((k.countFork.bear i).set i p) := by
  have hold (j : ProcId) (hj : Flagged k j) : k.ledger.ident j < k.ledger.born :=
    h.books.born _ (h.flagged.counted j hj)
  have hcases (j : ProcId) (hj : Flagged ((k.countFork.bear i).set i p) j) :
      j = i ∧ ((k.countFork.bear i).set i p).ledger.ident j = k.ledger.born ∨
      Flagged k j ∧ ((k.countFork.bear i).set i p).ledger.ident j = k.ledger.ident j := by
    rcases flagged_set hj with ⟨rfl, _⟩ | ⟨hne, hf⟩
    · exact .inl ⟨rfl, Function.update_self _ _ _⟩
    · exact .inr ⟨hf, Function.update_of_ne hne _ _⟩
  constructor
  · exact books_countFork h.books ht
  · constructor
    · intro j hj
      change _ ∈ k.ledger.counted ++ [k.ledger.born]
      rcases hcases j hj with ⟨_, he⟩ | ⟨hf, he⟩ <;> rw [he]
      · simp
      · exact List.mem_append.mpr (.inl (h.flagged.counted j hf))
    · intro j hj
      rcases hcases j hj with ⟨_, he⟩ | ⟨hf, he⟩ <;> rw [he]
      · intro hm
        exact lt_irrefl _ (h.books.born _ (h.books.counted _ hm))
      · exact h.flagged.pending j hf
    · intro j j' hj hj' heq
      rcases hcases j hj with ⟨h1, he⟩ | ⟨hf, he⟩ <;>
        rcases hcases j' hj' with ⟨h1', he'⟩ | ⟨hf', he'⟩ <;> rw [he, he'] at heq
      · rw [h1, h1']
      · exact absurd (hold j' hf') (by omega)
      · exact absurd (hold j hf) (by omega)
      · exact h.flagged.distinct j j' hf hf' heq
  · exact h.reports

theorem inv_fork (h : Inv k) (hq : (k.procs q).state = .running) {m : Mem}
    (ho : ∀ k', Orderly ⟨k, .fork q m, k'⟩) : Inv (fork k q m) := by
  have ho := ho k
  rcases fork_cases hq m with ⟨_, hf⟩ | ⟨i, hi, _, ⟨p, _, _, hf⟩ | hf⟩ <;> rw [hf]
  · exact h
  · exact inv_dead (h.frame rfl rfl rfl fun _ => id)
      (by simp [Live, Proc.freeproc])
  · have hbump : Inv k.bumpPid := h.frame rfl rfl rfl fun _ => id
    unfold Kernel.afterFork
    by_cases hs : (k.procs q).runsSchedbench = true
    · simp only [Orderly, hs] at ho ⊢
      exact inv_bear_counted hbump ho
    · simp only [Orderly, hs] at ho ⊢
      apply inv_bear_plain hbump
      simp only [newborn, Proc.copyFrom, hs]
      exact ho i hi

/-- Only the exiting process stops being flagged. -/
theorem flagged_exitTable (status : Int) (hp : k'.procs = exitTable k q status)
    (h : Flagged k' i) : i ≠ q ∧ Flagged k i := by
  have hne : i ≠ q := by
    rintro rfl
    have hz := (exitTable_self k i status).1
    have hl := h.1
    rw [hp, Live, hz] at hl
    exact hl.2 rfl
  refine ⟨hne, ?_⟩
  apply Mild.flagged _ h
  rw [hp]
  exact mild_exitTable k status hne

theorem average_of_small {n : Nat} (s : Nat) (h : n < 2 ^ 31) :
    average s (n : Int) = int32 ((s / n : Nat) : Int) := by
  have hn : ((n : Int) % 2 ^ 64).toNat = n := by omega
  rw [average, hn]

theorem audited_last (h : Books b l) {e : Entry} (mode : Int) (hc : e.ident ∈ l.counted)
    (hp : e.ident ∉ idents l.done) (hlast : l.done.length + 1 = l.counted.length) :
    Audited ⟨mode, average ((b.globalTurnaroundTime + e.turnaround) % 2 ^ 64) l.counted.length,
      average ((b.globalWaitingTime + e.waiting) % 2 ^ 64) l.counted.length, l.counted,
      l.done ++ [e]⟩ := by
  obtain ⟨hnd, hsub, _⟩ := h.close hc hp
  constructor
  · exact hnd
  · apply (List.subperm_of_subset hnd hsub).perm_of_length_le
    simp [idents, hlast]
  · rw [average_of_small _ h.small, h.turnaround]
    simp [sumTurnaround]
  · dsimp only
    rw [average_of_small _ h.small, h.waiting]
    simp [sumWaiting]

/-- What account does to the books, by whether the last open fork completes. -/
theorem account_cases (h : Books k.bench k.ledger) (p : Proc)
    (hc : k.ledger.ident q ∈ k.ledger.counted) (hp : k.ledger.ident q ∉ idents k.ledger.done) :
    let e : Entry := ⟨k.ledger.ident q, p.turnaroundTime, p.waitingTime⟩
    let r : Report := ⟨k.schedMode,
      average ((k.bench.globalTurnaroundTime + e.turnaround) % 2 ^ 64) k.ledger.counted.length,
      average ((k.bench.globalWaitingTime + e.waiting) % 2 ^ 64) k.ledger.counted.length,
      k.ledger.counted, k.ledger.done ++ [e]⟩
    k.ledger.done.length + 1 = k.ledger.counted.length ∧
        account k q p = Kernel.reset { k with console := k.console ++ [r] } ∨
      account k q p = { k with
        bench := ⟨(k.bench.globalTurnaroundTime + e.turnaround) % 2 ^ 64,
          (k.bench.globalWaitingTime + e.waiting) % 2 ^ 64, k.ledger.counted.length,
          (k.ledger.done.length + 1 : Nat)⟩
        ledger := { k.ledger with done := k.ledger.done ++ [e] } } := by
  intro e r
  obtain ⟨_, _, hle⟩ := h.close (e := e) hc hp
  have hsmall := h.small
  have hnext : int32 (k.bench.completedBenchmarkProcesses + 1) =
      ((k.ledger.done.length + 1 : Nat) : Int) := by
    rw [h.completed, int32_of_small] <;> omega
  by_cases hlast : k.ledger.done.length + 1 = k.ledger.counted.length
  · left
    refine ⟨hlast, ?_⟩
    simp only [account, hnext, h.total, hlast]
    rfl
  · right
    have hne : ((k.ledger.done.length + 1 : Nat) : Int) ≠ (k.ledger.counted.length : Int) := by
      omega
    simp only [account, hnext, h.total, hne]
    rfl

theorem inv_account (h : Inv k) (hq : Flagged k q) (p : Proc) {procs : ProcId → Proc}
    (hp : ∀ i, Flagged { account k q p with procs := procs } i → i ≠ q ∧ Flagged k i) :
    Inv { account k q p with procs := procs } := by
  have hc := h.flagged.counted q hq
  have hpend := h.flagged.pending q hq
  rcases account_cases h.books p hc hpend with ⟨hlast, hacc⟩ | hacc
  · have haud := audited_last h.books
      (e := ⟨k.ledger.ident q, p.turnaroundTime, p.waitingTime⟩) k.schedMode hc hpend hlast
    have hnone (i : ProcId) (hi : i ≠ q ∧ Flagged k i) : False := by
      have hmem := haud.complete.mem_iff.mpr (h.flagged.counted i hi.2)
      simp only [idents, List.map_append, List.map_cons, List.map_nil, List.mem_append,
        List.mem_singleton] at hmem
      rcases hmem with hm | hm
      · exact h.flagged.pending i hi.2 hm
      · exact hi.1 (h.flagged.distinct i q hi.2 hq hm)
    constructor
    · rw [hacc]
      exact Books.zero k.ledger
    · exact ⟨fun i hi => (hnone i (hp i hi)).elim, fun i hi => (hnone i (hp i hi)).elim,
        fun i _ hi => (hnone i (hp i hi)).elim⟩
    · intro r hr
      rw [hacc] at hr
      rcases List.mem_append.mp hr with hr | hr
      · exact h.reports r hr
      · rw [List.mem_singleton.mp hr]
        exact haud
  · obtain ⟨hnd, hsub, _⟩ := h.books.close
      (e := ⟨k.ledger.ident q, p.turnaroundTime, p.waitingTime⟩) hc hpend
    constructor
    · rw [hacc]
      constructor
      · rfl
      · simp
      · simp [h.books.turnaround, sumTurnaround]
      · simp [h.books.waiting, sumWaiting]
      · exact h.books.born
      · exact h.books.distinct
      · exact hnd
      · exact hsub
      · exact h.books.small
    · constructor
      · intro i hi
        rw [hacc]
        exact h.flagged.counted i (hp i hi).2
      · intro i hi hm
        rw [hacc] at hm
        simp only [idents, List.map_append, List.map_cons, List.map_nil, List.mem_append,
          List.mem_singleton] at hm
        rcases hm with hm | hm
        · exact h.flagged.pending i (hp i hi).2 hm
        · exact (hp i hi).1 (h.flagged.distinct i q (hp i hi).2 hq hm)
      · intro i j hi hj heq
        rw [hacc] at heq
        exact h.flagged.distinct i j (hp i hi).2 (hp j hj).2 heq
    · rw [hacc]
      exact h.reports

theorem inv_exit (h : Inv k) (hq : (k.procs q).state = .running) (status : Int) :
    Inv (exit k q status) := by
  have hf (k' : Kernel) (i : ProcId) (hi : Flagged { k' with procs := exitTable k q status } i) :
      i ≠ q ∧ Flagged k i := flagged_exitTable status rfl hi
  unfold exit
  by_cases hb : (exiting k q).isBenchmarkProcess = 0
  · simp only [hb]
    exact h.frame rfl rfl rfl fun i hi => (hf k i hi).2
  · simp only [hb]
    exact inv_account h ⟨live_of_running hq, hb⟩ _ fun i hi => hf _ i hi

theorem inv_schedstats (h : Inv k) {mode : Int}
    (ho : ∀ k', Orderly ⟨k, .schedstats mode, k'⟩) : Inv (schedstats k mode) := by
  have ho := ho k
  unfold schedstats
  split
  case isTrue => exact h
  case isFalse hm =>
    have hnone (i : ProcId) (hi : Flagged k i) : False := hi.2 (ho (by omega) i hi.1)
    exact ⟨Books.zero k.ledger, ⟨fun i hi => (hnone i hi).elim, fun i hi => (hnone i hi).elim,
      fun i _ hi => (hnone i hi).elim⟩, h.reports⟩

theorem next_inv {a : Call} (h : Inv k) (hn : next k a = some k')
    (ho : ∀ k'', Orderly ⟨k, a, k''⟩) : Inv k' := by
  cases next_cases hn with
  | fork q m hq => exact inv_fork h hq ho
  | exit q status hq => exact inv_exit h hq status
  | reap q i c hz => exact inv_dead h (by simp [Live, Proc.freeproc])
  | schedstats mode => exact inv_schedstats h ho
  | quiet a k' hk => exact h.frame hk.bench hk.ledger hk.console fun i => (hk.procs i).flagged

theorem inv_boot : Inv boot := by
  have hnone (i : ProcId) (hi : Flagged boot i) : False := by
    apply hi.2
    by_cases h : i = initproc
    · subst h
      rfl
    · simp [boot, h, Proc.zero]
  exact ⟨Books.zero boot.ledger, ⟨fun i hi => (hnone i hi).elim, fun i hi => (hnone i hi).elim,
    fun i _ hi => (hnone i hi).elim⟩, by simp [boot]⟩

theorem Inv.accounts (h : Inv k) : Accounts k where
  nonneg := by
    rw [h.books.completed]
    omega
  le := by
    have hle := h.books.done_le
    rw [h.books.completed, h.books.total]
    omega
  total := h.books.total
  completed := h.books.completed
  once := h.books.once
  counted := h.books.counted
  turnaround := h.books.turnaround
  waiting := h.books.waiting
  reports := h.reports

/-- In every run of orderly steps the counters and all reports are right in every state. -/
theorem benchmark_accounting {tr : List (Event Kernel Call)} (h : Path next boot tr k)
    (ho : ∀ e ∈ tr, Orderly e) : Accounts k :=
  (h.invariant (fun _ _ _ hs hn hC => next_inv hs hn fun _ => hC) inv_boot ho).accounts

/-- schedbench forks one process, which exits and is reaped. -/
def oneBenchmark : List Call :=
  [.dispatch 0, .fork 0 Mem.ok, .dispatch 1, .exec 1 schedbench, .fork 1 Mem.ok, .clockintr,
    .dispatch 2, .exit 2 0, .wait 1 true]

theorem benchmark_accounting_oneBenchmark :
    Accounts (final next boot oneBenchmark) ∧
      (final next boot oneBenchmark).console.length = 1 :=
  ⟨benchmark_accounting (path_final rfl) (by decide), rfl⟩

/-- The same slot is then taken by a child of another program. -/
def staleFlag : List Call :=
  oneBenchmark ++ [.exec 1 ['s', 'h'], .fork 1 Mem.ok, .dispatch 2, .exit 2 0]

theorem staleFlag_not_accounts :
    ¬ ∀ (tr : List (Event Kernel Call)) (k : Kernel), Path next boot tr k → Accounts k := by
  intro h
  have hle := (h _ (final next boot staleFlag) (path_final rfl)).le
  revert hle
  decide

end Xv6.Process.Calls
