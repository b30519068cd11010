import Xv6.Process.Steps

set_option maxRecDepth 8192

namespace Xv6.Process.Calls

open Xv6.Framework

variable {k k' k₁ k₂ : Kernel} {p p' : Proc} {q q₁ q₂ i : ProcId}

/-- What the code does reset on every way through a slot's life. -/
structure SlotOk (p : Proc) : Prop where
  chan : p.state = .unused → p.chan = none
  xstate : p.state = .unused → p.xstate = 0
  ofile : ¬ Live p → p.ofile = fun _ => none
  flag : p.isBenchmarkProcess = 0 ∨ p.isBenchmarkProcess = 1

theorem SlotOk.of_live (hf : p.isBenchmarkProcess = 0 ∨ p.isBenchmarkProcess = 1)
    (hl : Live p) : SlotOk p where
  chan h := absurd h hl.1
  xstate h := absurd h hl.1
  ofile h := absurd hl h
  flag := hf

theorem SlotOk.freeproc (hf : p.isBenchmarkProcess = 0 ∨ p.isBenchmarkProcess = 1)
    (ho : p.ofile = fun _ => none) (t : Nat) : SlotOk (p.freeproc t) where
  chan _ := rfl
  xstate _ := rfl
  ofile _ := ho
  flag := hf

theorem SlotOk.mild (h : SlotOk p) (hm : Mild p p') : SlotOk p' := by
  by_cases hl : Live p
  · apply SlotOk.of_live _ (hm.live hl)
    rw [hm.flag]
    exact h.flag
  · obtain ⟨hs, hc, hx, ho⟩ := hm.dead hl
    constructor
    · intro hu
      rw [hc]
      exact h.chan (hs.symm.trans hu)
    · intro hu
      rw [hx]
      exact h.xstate (hs.symm.trans hu)
    · intro _
      rw [ho]
      exact h.ofile hl
    · rw [hm.flag]
      exact h.flag

def TableOk (k : Kernel) : Prop := ∀ i, SlotOk (k.procs i)

theorem TableOk.set (h : TableOk k) (hp : SlotOk p) : TableOk (k.set i p) := by
  intro j
  by_cases hj : j = i
  · subst hj
    simpa using hp
  · rw [k.set_of_ne p hj]
    exact h j

theorem newborn_flag (h : TableOk k) : (newborn k q i).isBenchmarkProcess = 0 ∨
    (newborn k q i).isBenchmarkProcess = 1 := by
  simp only [newborn, Proc.copyFrom]
  split
  · exact .inr rfl
  · exact (h i).flag

theorem afterFork_procs (k : Kernel) (q i : ProcId) :
    (k.afterFork q i).procs = Function.update k.procs i (newborn k q i) := by
  unfold Kernel.afterFork
  split <;> rfl

theorem fork_ok (h : TableOk k) (hq : (k.procs q).state = .running) (m : Mem) :
    TableOk (fork k q m) := by
  rcases fork_cases hq m with ⟨_, hf⟩ | ⟨i, hi, _, ⟨p, ho, hb, hf⟩ | hf⟩
  · rw [hf]
    exact h
  · rw [hf]
    apply TableOk.set h
    apply SlotOk.freeproc
    · rw [hb]
      exact (h i).flag
    · rw [ho]
      exact (h i).ofile (by simp [Live, firstUnused_spec hi])
  · intro j
    rw [hf, afterFork_procs]
    by_cases hj : j = i
    · subst hj
      rw [Function.update_self]
      exact SlotOk.of_live (newborn_flag h) (by simp [Live, newborn])
    · rw [Function.update_of_ne hj]
      exact h j

theorem exit_ok (h : TableOk k) (status : Int) : TableOk (exit k q status) := by
  intro j
  change SlotOk (exitTable k q status j)
  by_cases hj : j = q
  · subst hj
    obtain ⟨hz, hf, ho⟩ := exitTable_self k j status
    constructor
    · intro hu
      rw [hz] at hu
      cases hu
    · intro hu
      rw [hz] at hu
      cases hu
    · exact fun _ => ho
    · rw [hf]
      exact (h j).flag
  · exact (h j).mild (mild_exitTable k status hj)

theorem next_ok {a : Call} (h : TableOk k) (hn : next k a = some k') : TableOk k' := by
  cases next_cases hn with
  | fork q m hq => exact fork_ok h hq m
  | exit q status => exact exit_ok h status
  | reap q i c hz =>
    exact h.set (SlotOk.freeproc (h i).flag ((h i).ofile (by simp [Live, hz])) _)
  | schedstats mode =>
    unfold schedstats
    split
    · exact h
    · exact h
  | quiet a k' hk => exact fun i => (h i).mild (hk.procs i)

theorem boot_ok : TableOk boot := by
  intro i
  unfold boot
  dsimp only
  by_cases hi : i = initproc
  · subst hi
    exact SlotOk.of_live (.inl rfl) (by simp [Live, Proc.userinit])
  · rw [Function.update_of_ne hi]
    exact ⟨fun _ => rfl, fun _ => rfl, fun _ => rfl, .inl rfl⟩

theorem reachable_ok {tr : List (Event Kernel Call)} (h : Path next boot tr k) : TableOk k :=
  h.invariant (fun _ _ _ hs hn _ => next_ok hs hn) boot_ok
    fun _ _ => trivial

/-- Two states in which fork is called alike: the same tick count, the same name, files and
directory of the caller, the same free slot. -/
structure SameCall (k₁ k₂ : Kernel) (q₁ q₂ i : ProcId) : Prop where
  running₁ : (k₁.procs q₁).state = .running
  running₂ : (k₂.procs q₂).state = .running
  ticks : k₁.ticks = k₂.ticks
  name : (k₁.procs q₁).name = (k₂.procs q₂).name
  ofile : (k₁.procs q₁).ofile = (k₂.procs q₂).ofile
  cwd : (k₁.procs q₁).cwd = (k₂.procs q₂).cwd
  slot₁ : firstUnused k₁.procs = some i
  slot₂ : firstUnused k₂.procs = some i

structure SameFields (p p' : Proc) : Prop where
  killed : p.killed = p'.killed
  chan : p.chan = p'.chan
  xstate : p.xstate = p'.xstate
  rtime : p.rtime = p'.rtime
  starttime : p.starttime = p'.starttime
  completetime : p.completetime = p'.completetime
  priority : p.priority = p'.priority
  isBenchmarkProcess : p.isBenchmarkProcess = p'.isBenchmarkProcess
  turnaroundTime : p.turnaroundTime = p'.turnaroundTime
  waitingTime : p.waitingTime = p'.waitingTime
  ofile : p.ofile = p'.ofile
  cwd : p.cwd = p'.cwd

/-- The new process np of the given parent shows nothing of an earlier occupant. -/
structure Fresh (np parent : Proc) : Prop where
  killed : np.killed = 0
  starttime : np.starttime = 0
  flag : np.isBenchmarkProcess = 1 ↔ parent.name = schedbench

/-- The free slot has kept nothing of what allocproc and fork fail to reset. -/
structure Clean (slot parent : Proc) : Prop where
  killed : slot.killed = 0
  starttime : slot.starttime = 0
  flag : parent.name = schedbench ∨ slot.isBenchmarkProcess = 0

theorem fork_child (hq : (k.procs q).state = .running) (hi : firstUnused k.procs = some i) :
    (fork k q Mem.ok).procs i = newborn k q i := by
  rw [fork_success hi (ne_of_firstUnused hq hi) rfl rfl, afterFork_procs, Function.update_self]

theorem runsSchedbench_iff (p : Proc) : p.runsSchedbench = true ↔ p.name = schedbench :=
  strncmpEq_schedbench p.name

/-- A newborn takes the parent's files where it has any, and the slot has none of its own. -/
theorem newborn_ofile (h : TableOk k) (hi : firstUnused k.procs = some i) :
    (newborn k q i).ofile = (k.procs q).ofile := by
  have hfree := (h i).ofile (by simp [Live, firstUnused_spec hi])
  funext fd
  simp only [newborn, Proc.copyFrom, Proc.claim, hfree]
  cases (k.procs q).ofile fd <;> rfl

theorem fresh_iff_clean (h : TableOk k) :
    Fresh (newborn k q i) (k.procs q) ↔ Clean (k.procs i) (k.procs q) := by
  have hflag : (newborn k q i).isBenchmarkProcess =
      if (k.procs q).runsSchedbench then 1 else (k.procs i).isBenchmarkProcess := rfl
  have hbit := (h i).flag
  constructor
  · intro hf
    refine ⟨hf.killed, hf.starttime, ?_⟩
    have hiff := hf.flag
    by_cases hn : (k.procs q).name = schedbench
    · exact .inl hn
    · right
      rw [hflag, if_neg (fun hr => hn ((runsSchedbench_iff _).mp hr))] at hiff
      rcases hbit with hb | hb
      · exact hb
      · exact absurd (hiff.mp hb) hn
  · intro hc
    refine ⟨hc.killed, hc.starttime, ?_⟩
    rw [hflag]
    by_cases hn : (k.procs q).name = schedbench
    · simp [(runsSchedbench_iff _).mpr hn, hn]
    · rw [if_neg (fun hr => hn ((runsSchedbench_iff _).mp hr))]
      rcases hc.flag with hs | hb
      · exact absurd hs hn
      · simp [hb, hn]

/-- For every two histories that end in the same call of fork, the children agree and are fresh
if and only if what the slot kept of killed, starttime and the benchmark flag is zero in both
and the times of its last exit are the same. -/
theorem fork_fresh_iff {tr₁ tr₂ : List (Event Kernel Call)} (h₁ : Path next boot tr₁ k₁)
    (h₂ : Path next boot tr₂ k₂) (hc : SameCall k₁ k₂ q₁ q₂ i) :
    (SameFields ((fork k₁ q₁ Mem.ok).procs i) ((fork k₂ q₂ Mem.ok).procs i) ∧
        Fresh ((fork k₁ q₁ Mem.ok).procs i) (k₁.procs q₁) ∧
        Fresh ((fork k₂ q₂ Mem.ok).procs i) (k₂.procs q₂)) ↔
      Clean (k₁.procs i) (k₁.procs q₁) ∧ Clean (k₂.procs i) (k₂.procs q₂) ∧
        (k₁.procs i).turnaroundTime = (k₂.procs i).turnaroundTime ∧
        (k₁.procs i).waitingTime = (k₂.procs i).waitingTime := by
  have hok₁ := reachable_ok h₁
  have hok₂ := reachable_ok h₂
  rw [fork_child hc.running₁ hc.slot₁, fork_child hc.running₂ hc.slot₂,
    fresh_iff_clean hok₁, fresh_iff_clean hok₂]
  constructor
  · rintro ⟨hs, hc₁, hc₂⟩
    exact ⟨hc₁, hc₂, hs.turnaroundTime, hs.waitingTime⟩
  · rintro ⟨hc₁, hc₂, ht, hw⟩
    have hu₁ := firstUnused_spec hc.slot₁
    have hu₂ := firstUnused_spec hc.slot₂
    have hf₁ := (fresh_iff_clean hok₁).mpr hc₁
    have hf₂ := (fresh_iff_clean hok₂).mpr hc₂
    refine ⟨?_, hc₁, hc₂⟩
    constructor
    · rw [hf₁.killed, hf₂.killed]
    · exact ((hok₁ i).chan hu₁).trans ((hok₂ i).chan hu₂).symm
    · exact ((hok₁ i).xstate hu₁).trans ((hok₂ i).xstate hu₂).symm
    · rfl
    · rw [hf₁.starttime, hf₂.starttime]
    · rfl
    · rfl
    · have hiff : (newborn k₁ q₁ i).isBenchmarkProcess = 1 ↔
          (newborn k₂ q₂ i).isBenchmarkProcess = 1 := by
        rw [hf₁.flag, hf₂.flag, hc.name]
      have hb₁ := newborn_flag (q := q₁) (i := i) hok₁
      have hb₂ := newborn_flag (q := q₂) (i := i) hok₂
      omega
    · exact ht
    · exact hw
    · rw [newborn_ofile hok₁ hc.slot₁, newborn_ofile hok₂ hc.slot₂, hc.ofile]
    · exact hc.cwd

/-- init forks, the child is dispatched after the first tick, exits and is reaped. -/
def usedSlot : List Call :=
  [.dispatch 0, .fork 0 Mem.ok, .clockintr, .dispatch 1, .exit 1 0, .wait 0 true]

/-- init only waits for the first tick. -/
def unusedSlot : List Call := [.dispatch 0, .clockintr]

theorem usedSlot_not_fresh :
    ¬ ∀ (tr₁ tr₂ : List (Event Kernel Call)) (k₁ k₂ : Kernel) (q₁ q₂ i : ProcId),
      Path next boot tr₁ k₁ → Path next boot tr₂ k₂ → SameCall k₁ k₂ q₁ q₂ i →
      SameFields ((fork k₁ q₁ Mem.ok).procs i) ((fork k₂ q₂ Mem.ok).procs i) ∧
        Fresh ((fork k₁ q₁ Mem.ok).procs i) (k₁.procs q₁) ∧
        Fresh ((fork k₂ q₂ Mem.ok).procs i) (k₂.procs q₂) := by
  intro h
  have hs := h _ _ (final next boot usedSlot) (final next boot unusedSlot) 0 0 1
    (path_final rfl) (path_final rfl) ⟨rfl, rfl, rfl, rfl, rfl, rfl, rfl, rfl⟩
  have hstart := hs.1.starttime
  revert hstart
  decide

/-- The child of init exits and is reaped before the first tick. -/
def earlySlot : List Call :=
  [.dispatch 0, .fork 0 Mem.ok, .dispatch 1, .exit 1 0, .wait 0 true, .clockintr]

theorem fork_fresh_earlySlot :
    SameFields ((fork (final next boot earlySlot) 0 Mem.ok).procs 1)
        ((fork (final next boot unusedSlot) 0 Mem.ok).procs 1) ∧
      Fresh ((fork (final next boot earlySlot) 0 Mem.ok).procs 1)
        ((final next boot earlySlot).procs 0) ∧
      Fresh ((fork (final next boot unusedSlot) 0 Mem.ok).procs 1)
        ((final next boot unusedSlot).procs 0) := by
  have h₁ : Path next boot _ (final next boot earlySlot) := path_final rfl
  have h₂ : Path next boot _ (final next boot unusedSlot) := path_final rfl
  have hc : SameCall (final next boot earlySlot) (final next boot unusedSlot) 0 0 1 :=
    ⟨rfl, rfl, rfl, rfl, rfl, rfl, rfl, rfl⟩
  apply (fork_fresh_iff h₁ h₂ hc).mpr
  exact ⟨⟨rfl, rfl, .inr rfl⟩, ⟨rfl, rfl, .inr rfl⟩, rfl, rfl⟩

end Xv6.Process.Calls
