import Xv6.Process.Steps

namespace Xv6.Process.Calls

open Xv6.Framework

variable {k k' : Kernel} {p p' p'' : Proc} {q i j : ProcId}

def targetResult (k : Kernel) (pid : Int) : Int := if (byPid k.procs pid).isSome then 0 else -1

/-- kill and setpriority, which do f to the slot they find. -/
def target (k : Kernel) (pid : Int) (f : Proc → Proc) : Kernel :=
  match byPid k.procs pid with
  | some i => k.set i (f (k.procs i))
  | none => k

def withPriority (prio : Int) (p : Proc) : Proc := { p with priority := prio }

theorem kill_eq (k : Kernel) (pid : Int) : kill k pid = target k pid Proc.kill := rfl

theorem setpriority_eq (k : Kernel) (pid prio : Int) :
    setpriority k pid prio = target k pid (withPriority prio) := rfl

/-- 0 and a change to a slot in use that has the pid, or -1 and no change since there is none. -/
def ActsOnLive (k : Kernel) (pid : Int) (k' : Kernel) (ret : Int) : Prop :=
  (ret = 0 ∧ ∃ i, (k.procs i).state ≠ .unused ∧ (k.procs i).pid = pid) ∧
      (∀ j, k'.procs j ≠ k.procs j → (k.procs j).state ≠ .unused ∧ (k.procs j).pid = pid) ∨
    ret = -1 ∧ (∀ i, (k.procs i).pid = pid → (k.procs i).state = .unused) ∧ k'.procs = k.procs

/-- The slot found is in use; or else nothing is done to it, and there is one in use with its pid. -/
def FindsLive (k : Kernel) (pid : Int) (f : Proc → Proc) : Prop :=
  ∀ i, byPid k.procs pid = some i → (k.procs i).state = .unused →
    f (k.procs i) = k.procs i ∧ ∃ j, (k.procs j).state ≠ .unused ∧ (k.procs j).pid = pid

theorem byPid_spec {procs : ProcId → Proc} {pid : Int} (h : byPid procs pid = some i) :
    (procs i).pid = pid := by
  simpa using List.find?_some h

theorem byPid_none {procs : ProcId → Proc} {pid : Int} (h : byPid procs pid = none) (i : ProcId) :
    (procs i).pid ≠ pid := by
  simpa using List.find?_eq_none.mp h i (List.mem_finRange i)

theorem target_iff (k : Kernel) (pid : Int) (f : Proc → Proc) :
    ActsOnLive k pid (target k pid f) (targetResult k pid) ↔ FindsLive k pid f := by
  unfold ActsOnLive FindsLive target targetResult
  cases h : byPid k.procs pid with
  | none => simpa using fun i hi => absurd hi (byPid_none h i)
  | some i =>
    have hpid := byPid_spec h
    constructor
    · rintro (⟨⟨-, hlive⟩, hchange⟩ | ⟨hret, -⟩)
      · rintro j hj hu
        cases hj
        refine ⟨?_, hlive⟩
        by_contra hne
        exact (hchange i (by simpa using hne)).1 hu
      · cases hret
    · intro hfind
      left
      by_cases hu : (k.procs i).state = .unused
      · obtain ⟨hf, hlive⟩ := hfind i rfl hu
        refine ⟨⟨rfl, hlive⟩, fun j hj => absurd ?_ hj⟩
        dsimp only
        rw [hf, Kernel.set, Function.update_eq_self]
      · refine ⟨⟨rfl, i, hu, hpid⟩, fun j hj => ?_⟩
        by_cases hij : j = i
        · rw [hij]
          exact ⟨hu, hpid⟩
        · exact absurd (k.set_of_ne _ hij) hj

/-- A free slot was free and has kept its fields, or they are 0. -/
def Keeps (p p' : Proc) : Prop :=
  p'.state = .unused →
    (p.state = .unused ∧ p'.killed = p.killed ∧ p'.pid = p.pid) ∨ p'.killed = 0 ∧ p'.pid = 0

theorem Keeps.refl (p : Proc) : Keeps p p := fun h => .inl ⟨h, rfl, rfl⟩

theorem Keeps.trans (h : Keeps p p') (h' : Keeps p' p'') : Keeps p p'' := by
  intro hu
  rcases h' hu with ⟨hu', hk', hp'⟩ | h0
  · rcases h hu' with ⟨hu, hk, hp⟩ | ⟨hk, hp⟩
    · exact .inl ⟨hu, hk'.trans hk, hp'.trans hp⟩
    · exact .inr ⟨hk'.trans hk, hp'.trans hp⟩
  · exact .inr h0

theorem Keeps.inUse (h : p'.state ≠ .unused) : Keeps p p' := fun hu => absurd hu h

theorem Keeps.set (h : Keeps (k.procs i) p) : Keeps (k.procs j) ((k.set i p).procs j) := by
  by_cases hj : j = i
  · subst hj
    simpa using h
  · rw [k.set_of_ne p hj]
    exact .refl _

theorem keeps_wakeup (p : Proc) (ch : Chan) : Keeps p (p.wakeup ch) := by
  unfold Proc.wakeup
  split
  · exact .inUse (by simp)
  · exact .refl p

theorem keeps_adopt (p : Proc) (q : ProcId) : Keeps p (p.adopt q) := by
  unfold Proc.adopt
  split
  · exact fun h => .inl ⟨h, rfl, rfl⟩
  · exact .refl p

theorem keeps_exitTable (k : Kernel) (q : ProcId) (status : Int) (i : ProcId) :
    Keeps (k.procs i) (exitTable k q status i) := by
  unfold exitTable
  by_cases hi : i = q
  · rw [hi]
    exact .inUse (by simp)
  · have hother : Keeps (k.procs i) (reparent (Function.update k.procs q (exiting k q)) q i) := by
      unfold reparent
      split
      · rw [wakeup, Function.update_of_ne hi]
        exact (keeps_adopt _ q).trans (keeps_wakeup _ _)
      · rw [Function.update_of_ne hi]
        exact .refl _
    rw [Function.update_of_ne hi]
    refine hother.trans ?_
    unfold wakeupParent
    cases (reparent (Function.update k.procs q (exiting k q)) q q).parent with
    | some p => exact keeps_wakeup _ _
    | none => exact .refl _

theorem keeps_own {f : Proc → Proc} (h : own k q f = some k')
    (hf : ∀ p, p.state = .running → (f p).state ≠ .unused) : Keeps (k.procs i) (k'.procs i) := by
  unfold own at h
  split_ifs at h with hr
  cases h
  exact Keeps.set (.inUse (hf _ hr))

/-- Every step but kill keeps the free slots. -/
theorem next_keeps {a : Call} (h : next k a = some k') (ha : ∀ pid, a ≠ .kill pid) (i : ProcId) :
    Keeps (k.procs i) (k'.procs i) := by
  cases a with
  | kill pid => exact absurd rfl (ha pid)
  | exec | yield | sleep | setkilled | setFile | chdir =>
    simp only [next] at h
    exact keeps_own h fun p hp => by simp [Proc.exec, hp]
  | fork q m =>
    simp only [next] at h
    split_ifs at h with hq
    cases h
    rcases fork_cases hq m with ⟨-, hf⟩ | ⟨c, -, -, ⟨p, -, -, hf⟩ | hf⟩
    · rw [hf]
      exact .refl _
    · rw [hf]
      exact Keeps.set fun _ => .inr ⟨rfl, rfl⟩
    · rw [hf, Kernel.afterFork]
      split <;> exact Keeps.set (.inUse (by simp [newborn]))
  | exit q status =>
    simp only [next] at h
    split_ifs at h
    cases h
    exact keeps_exitTable k q status i
  | wait q c =>
    simp only [next] at h
    split_ifs at h
    cases h
    unfold wait
    dsimp only
    split
    · split
      · exact Keeps.set fun _ => .inr ⟨rfl, rfl⟩
      · exact .refl _
    · split
      · exact Keeps.set (.inUse (by simp))
      · exact .refl _
  | setpriority pid prio =>
    cases h
    unfold setpriority
    split
    · exact Keeps.set fun hu => .inl ⟨hu, rfl, rfl⟩
    · exact .refl _
  | schedstats mode =>
    cases h
    unfold schedstats
    split <;> exact .refl _
  | dispatch p =>
    simp only [next] at h
    split_ifs at h
    cases h
    exact Keeps.set (.inUse (by simp [Proc.dispatch]))
  | wakeup ch =>
    cases h
    exact keeps_wakeup _ ch
  | clockintr =>
    cases h
    refine Keeps.trans ?_ (keeps_wakeup _ _)
    dsimp only [Proc.updateTime]
    split
    · exact fun hu => .inl ⟨hu, rfl, rfl⟩
    · exact .refl _

theorem kill_unused (k : Kernel) (pid : Int) (hu : ((kill k pid).procs i).state = .unused) :
    (k.procs i).state = .unused ∧ ((kill k pid).procs i).pid = (k.procs i).pid ∧
      (((kill k pid).procs i).killed = (k.procs i).killed ∨ byPid k.procs pid = some i) := by
  unfold kill at hu ⊢
  cases h : byPid k.procs pid with
  | none => exact ⟨by rwa [h] at hu, rfl, .inl rfl⟩
  | some c =>
    rw [h] at hu
    by_cases hc : i = c
    · subst hc
      rw [Kernel.set_self] at hu ⊢
      rw [Proc.kill] at hu
      split_ifs at hu
      exact ⟨hu, rfl, .inr rfl⟩
    · rw [k.set_of_ne _ hc] at hu ⊢
      exact ⟨hu, rfl, .inl rfl⟩

theorem boot_unused (hu : (boot.procs i).state = .unused) :
    (boot.procs i).killed = 0 ∧ (boot.procs i).pid = 0 := by
  by_cases hi : i = initproc
  · subst hi
    simp [boot, Proc.userinit] at hu
  · simp [boot, hi, Proc.zero]

/-- The pid of a free slot is 0. -/
theorem reachable_pid {tr : List (Event Kernel Call)} (h : Path next boot tr k) :
    ∀ i, (k.procs i).state = .unused → (k.procs i).pid = 0 := by
  refine h.invariant (I := fun k => ∀ i, (k.procs i).state = .unused → (k.procs i).pid = 0)
    (C := fun _ => True) (fun k a k' hI hn _ i hu => ?_) (fun i hu => (boot_unused hu).2) (by simp)
  by_cases ha : ∃ pid, a = .kill pid
  · obtain ⟨pid, rfl⟩ := ha
    cases hn
    obtain ⟨hu', hpid, -⟩ := kill_unused k pid hu
    rw [hpid, hI i hu']
  · rcases next_keeps hn (fun pid he => ha ⟨pid, he⟩) i hu with ⟨hu', -, hpid⟩ | ⟨-, hpid⟩
    · rw [hpid, hI i hu']
    · exact hpid

/-- A call of kill that finds a slot in use. -/
def Careful (e : Event Kernel Call) : Prop :=
  match e.label with
  | .kill pid => FindsLive e.pre pid Proc.kill
  | .setpriority pid prio => FindsLive e.pre pid (withPriority prio)
  | _ => True

/-- Without a kill that finds a free slot, no free slot is marked. -/
theorem careful_killed {tr : List (Event Kernel Call)} (h : Path next boot tr k)
    (hc : ∀ e ∈ tr, Careful e) : ∀ i, (k.procs i).state = .unused → (k.procs i).killed = 0 := by
  refine h.invariant (I := fun k => ∀ i, (k.procs i).state = .unused → (k.procs i).killed = 0)
    (fun k a k' hI hn ha i hu => ?_) (fun i hu => (boot_unused hu).1) hc
  by_cases hkill : ∃ pid, a = .kill pid
  · obtain ⟨pid, rfl⟩ := hkill
    cases hn
    obtain ⟨hu', -, hkilled | hfound⟩ := kill_unused k pid hu
    · rw [hkilled, hI i hu']
    · have heq := (ha i hfound hu').1
      have hone := congrArg Proc.killed heq
      exact absurd (hone.trans (hI i hu')) (show (1 : Int) ≠ 0 by decide)
  · rcases next_keeps hn (fun pid he => hkill ⟨pid, he⟩) i hu with ⟨hu', hkilled, -⟩ | ⟨hkilled, -⟩
    · rw [hkilled, hI i hu']
    · exact hkilled

/-- kill and setpriority act on live processes just where the slot they find is in use, as it is for
every pid but 0; while all calls do, a new process is neither killed nor has a priority. -/
theorem kill_setpriority_iff {tr : List (Event Kernel Call)} (h : Path next boot tr k) :
    (∀ pid, ActsOnLive k pid (kill k pid) (targetResult k pid) ↔ FindsLive k pid Proc.kill) ∧
      (∀ pid prio, ActsOnLive k pid (setpriority k pid prio) (targetResult k pid) ↔
        FindsLive k pid (withPriority prio)) ∧
      (∀ pid f, pid ≠ 0 → FindsLive k pid f) ∧
      ((∀ e ∈ tr, Careful e) → ∀ q i, (k.procs q).state = .running → firstUnused k.procs = some i →
        ((fork k q Mem.ok).procs i).killed = 0 ∧ ((fork k q Mem.ok).procs i).priority = 0) := by
  refine ⟨fun pid => ?_, fun pid prio => ?_, ?_, ?_⟩
  · rw [kill_eq, target_iff]
  · rw [setpriority_eq, target_iff]
  · intro pid f hpid i hi hu
    exact absurd ((byPid_spec hi).symm.trans (reachable_pid h i hu)) hpid
  · intro hc q i hq hi
    have hchild : (fork k q Mem.ok).procs i = newborn k q i := by
      rw [fork_success hi (ne_of_firstUnused hq hi) rfl rfl, Kernel.afterFork, Kernel.set_self]
    rw [hchild]
    exact ⟨careful_killed h hc i (firstUnused_spec hi), rfl⟩

theorem kill_child :
    ActsOnLive (final next boot [.dispatch 0, .fork 0 Mem.ok]) 2
      (kill (final next boot [.dispatch 0, .fork 0 Mem.ok]) 2)
      (targetResult (final next boot [.dispatch 0, .fork 0 Mem.ok]) 2) := by
  have h : Path next boot _ (final next boot [.dispatch 0, .fork 0 Mem.ok]) := path_final rfl
  exact ((kill_setpriority_iff h).1 2).mpr ((kill_setpriority_iff h).2.2.1 2 _ (by decide))

/-- kill(0) finds a free slot, and the next process is born killed. -/
theorem kill_zero :
    targetResult (final next boot [.dispatch 0]) 0 = 0 ∧
      (∀ i, ((final next boot [.dispatch 0]).procs i).pid = 0 →
        ((final next boot [.dispatch 0]).procs i).state = .unused) ∧
      ((final next boot [.dispatch 0, .kill 0, .fork 0 Mem.ok]).procs 1).killed = 1 := by
  decide +kernel

end Xv6.Process.Calls
