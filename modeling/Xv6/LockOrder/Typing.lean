import Xv6.LockOrder.Model
import Mathlib.Data.Finset.Card

namespace Xv6.LockOrder

open Xv6.Framework Xv6.Process

/-- wait_lock, tickslock and the locks of objects come before those of the processes, which are
ordered by their slots. -/
def rank : Lock → Nat
  | .proc p => p.val + 1
  | _ => 0

/-- No lock of a process is among the locks. -/
def Outer (H : Finset Lock) : Prop := ∀ p, Lock.proc p ∉ H

def chosenLock : Option ProcId → Finset Lock
  | some p => {.proc p}
  | none => ∅

/-- Code that starts with the locks of H held, takes locks in order, and ends without any.
The scheduler does not end. -/
inductive Typed : List Op → Finset Lock → Prop
  | nil : Typed [] ∅
  | acquire {l : Lock} {k : List Op} {H : Finset Lock} (hl : ∀ l' ∈ H, rank l' < rank l)
      (hk : Typed k (insert l H)) : Typed (.acquire l :: k) H
  | again {l : Lock} {k : List Op} {H : Finset Lock} (hl : l ∈ H) (ho : Outer H) :
      Typed (.acquire l :: k) H
  | release {l : Lock} {k : List Op} {H : Finset Lock} (hl : l ∈ H) (hk : Typed k (H.erase l)) :
      Typed (.release l :: k) H
  | sched {p : ProcId} {k : List Op} (hk : Typed k {.proc p}) : Typed (.sched :: k) {.proc p}
  | setProc {p : ProcId} {k : List Op} (hk : Typed k {.proc p}) :
      Typed (.setProc p :: .swtch p :: k) {.proc p}
  | clearProc {k : List Op} {H : Finset Lock} (hk : Typed k H) : Typed (.clearProc :: k) H
  | newContext {p : ProcId} {k : List Op} {H : Finset Lock} (hk : Typed k H) :
      Typed (.newContext p :: k) H
  | yieldIf {k : List Op} (hk : Typed k ∅) : Typed (.yieldIf :: k) ∅
  | panic {k : List Op} {H : Finset Lock} : Typed (.panic :: k) H
  | scheduler {k : List Op} : Typed (.scheduler :: k) ∅
  | scan {m : SchedMode} {i : Nat} {o : Option ProcId} {k : List Op}
      (hr : m = .roundRobin → o = none) (hlt : ∀ p, o = some p → p.val < i) :
      Typed (.scan m i o :: k) (chosenLock o)
  | test {m : SchedMode} {p : ProcId} {o : Option ProcId} {k : List Op}
      (hr : m = .roundRobin → o = none) (hlt : ∀ q, o = some q → q < p) :
      Typed (.test m p o :: k) (insert (.proc p) (chosenLock o))
  | allocproc {i : Nat} {k : List Op} (hk : Typed k ∅) : Typed (.allocproc i :: k) ∅
  | found {np : ProcId} {k : List Op} (hk : Typed k ∅) : Typed (.found np :: k) {.proc np}
  | wait {p : ProcId} {i : Nat} {b : Bool} {k : List Op} (hk : Typed k ∅) :
      Typed (.wait p i b :: k) {.wait}
  | waitStat {p : ProcId} {i : Nat} {b : Bool} {k : List Op} (hk : Typed k ∅) :
      Typed (.waitStat p i b :: k) {.wait}
  | reparent {i : Nat} {k : List Op} (hk : Typed k {.wait}) : Typed (.reparent i :: k) {.wait}
  | wakeup {i : Nat} {k : List Op} {H : Finset Lock} (ho : Outer H) (hk : Typed k H) :
      Typed (.wakeup i :: k) H
  | search {i : Nat} {k : List Op} {H : Finset Lock} (ho : Outer H) (hk : Typed k H) :
      Typed (.search i :: k) H
  | updateTime {i : Nat} {k : List Op} {H : Finset Lock} (ho : Outer H) (hk : Typed k H) :
      Typed (.updateTime i :: k) H
  | sysSleep {p : ProcId} {k : List Op} (hk : Typed k ∅) : Typed (.sysSleep p :: k) {.ticks}
  | monitor {p : ProcId} {n : Nat} {k : List Op} (hk : Typed k ∅) :
      Typed (.monitor p n :: k) {.obj n}

variable {p q np : ProcId} {l : Lock} {k j : List Op} {H : Finset Lock} {i : Nat}
  {o me : Option ProcId} {m : SchedMode}

theorem Outer.rank_lt (ho : Outer H) (p : ProcId) : ∀ l ∈ H, rank l < rank (.proc p) := by
  intro l hl
  cases l with
  | proc q => exact absurd hl (ho q)
  | _ => exact Nat.succ_pos _

theorem outer_singleton (h : ∀ p, l ≠ .proc p) : Outer {l} := by
  intro p hp
  exact h p (Finset.mem_singleton.mp hp).symm

theorem outer_empty : Outer ∅ := fun _ => Finset.notMem_empty _

/-- A process lock is taken and dropped again. -/
theorem Typed.touch (ho : Outer H) (hk : Typed k H) :
    Typed (.acquire (.proc p) :: .release (.proc p) :: k) H := by
  refine .acquire (ho.rank_lt p) (.release (Finset.mem_insert_self ..) ?_)
  rw [Finset.erase_insert (ho p)]
  exact hk

theorem Typed.first (hk : Typed k {l}) : Typed (.acquire l :: k) ∅ := by
  refine .acquire (fun l' h => absurd h (Finset.notMem_empty _)) ?_
  exact hk

theorem Typed.last (hk : Typed k ∅) : Typed (.release l :: k) {l} := by
  refine .release (Finset.mem_singleton_self l) ?_
  rw [Finset.erase_singleton]
  exact hk

theorem Typed.yield (hk : Typed k ∅) : Typed (LockOrder.yield p ++ k) ∅ :=
  .first (.sched (.last hk))

theorem Typed.killed (ho : Outer H) (hk : Typed k H) : Typed (LockOrder.killed p ++ k) H :=
  .touch ho hk

theorem Typed.sleep (h : ∀ q, l ≠ .proc q) (hk : Typed k {l}) :
    Typed (LockOrder.sleep p l ++ k) {l} := by
  refine .acquire ((outer_singleton h).rank_lt p) (.release (by simp) ?_)
  have hset : (insert (Lock.proc p) {l} : Finset Lock).erase l = {.proc p} := by
    rw [Finset.pair_comm]
    simpa using h p
  rw [hset]
  exact .sched (.last (.first hk))

theorem Typed.swtchTo : Typed
    (.setProc p :: .swtch p :: .release (.proc p) :: .clearProc :: .scheduler :: k) {.proc p} :=
  .setProc (.last (.clearProc .scheduler))

/-- Each of the alternatives may stand before `k`. -/
def Choices (js : List (List Op)) (k : List Op) (H : Finset Lock) : Prop :=
  ∀ j ∈ js, Typed (j ++ k) H

namespace Choices

variable {js : List (List Op)}

theorem cons (h : Typed (j ++ k) H) (hs : Choices js k H) : Choices (j :: js) k H :=
  List.forall_mem_cons.mpr ⟨h, hs⟩

theorem one (h : Typed (j ++ k) H) : Choices [j] k H :=
  List.forall_mem_singleton.mpr h

/-- A loop over the table: its body for slot `i`, or its end. -/
theorem each {body : ProcId → List (List Op)} (hb : ∀ p : ProcId, p.val = i → Choices (body p) k H)
    (hd : Choices js k H) : Choices (eachSlot i body js) k H := by
  unfold eachSlot
  split
  case isTrue hi => exact hb ⟨i, hi⟩ rfl
  case isFalse => exact hd

end Choices

theorem outer_wait : Outer {.wait} := outer_singleton (by simp)

theorem outer_ticks : Outer {.ticks} := outer_singleton (by simp)

theorem outer_obj {n : Nat} : Outer {.obj n} := outer_singleton (by simp)

theorem chosenLock_lt (hlt : ∀ q, o = some q → q < p) :
    ∀ l ∈ chosenLock o, rank l < rank (.proc p) := by
  intro l hl
  cases o with
  | none => cases hl
  | some q =>
    rw [Finset.mem_singleton.mp hl]
    exact Nat.succ_lt_succ (hlt q rfl)

theorem notMem_chosenLock (hlt : ∀ q, o = some q → q < p) : Lock.proc p ∉ chosenLock o := by
  intro h
  exact Nat.lt_irrefl _ (chosenLock_lt hlt _ h)

/-- The scan goes on with the lock of slot p held, or dropped, or in place of the old one. -/
theorem typed_test (hr : m = .roundRobin → o = none) (hlt : ∀ q, o = some q → q < p) :
    Choices ((Op.test m p o).choices me) k (insert (.proc p) (chosenLock o)) := by
  refine .cons ?_ ?_
  · refine .release (Finset.mem_insert_self ..) ?_
    rw [Finset.erase_insert (notMem_chosenLock hlt)]
    exact .scan hr fun q hq => Nat.lt_succ_of_lt (hlt q hq)
  · by_cases hm : m = .roundRobin
    · obtain rfl := hr hm
      subst hm
      exact .one .swtchTo
    · have hscan : Typed (.scan m (p + 1) (some p) :: k) {.proc p} :=
        .scan (fun h => absurd h hm) fun q hq => by
          cases hq
          exact Nat.lt_succ_self _
      cases o with
      | none =>
        cases m with
        | roundRobin => exact absurd rfl hm
        | _ => exact .one hscan
      | some q =>
        have hne : Lock.proc q ≠ .proc p := by
          intro h
          injection h with h
          exact absurd (hlt q rfl) (by simp [h])
        have hset : (insert (Lock.proc p) (chosenLock (some q))).erase (.proc q) =
            {.proc p} := by
          rw [chosenLock, Finset.pair_comm]
          simpa using hne
        rw [← hset] at hscan
        cases m with
        | roundRobin => exact absurd rfl hm
        | _ => exact .one (.release (by simp [chosenLock]) hscan)

theorem typed_scan (hr : m = .roundRobin → o = none) (hlt : ∀ p, o = some p → p.val < i) :
    Choices ((Op.scan m i o).choices me) k (chosenLock o) := by
  have hslot : ∀ p : ProcId, p.val = i →
      Choices [[.acquire (.proc p), .test m p o]] k (chosenLock o) := by
    rintro p rfl
    exact .one (.acquire (chosenLock_lt hlt) (.test hr hlt))
  cases o with
  | some p =>
    rw [Op.choices]
    exact .each hslot (.one .swtchTo)
  | none =>
    rw [Op.choices]
    exact .each hslot (.one .scheduler)

theorem typed_wait {b : Bool} (hk : Typed k ∅) :
    Choices ((Op.wait p i b).choices me) k {.wait} := by
  rw [Op.choices]
  refine .each (fun _ _ => .cons (.wait hk) (.cons (.touch outer_wait (.last hk))
    (.one (.touch outer_wait (.wait hk))))) ?_
  cases b with
  | false => exact .one (.last hk)
  | true =>
    exact .cons (.killed outer_wait (.last hk))
      (.one (.killed outer_wait (.sleep (by simp) (.wait hk))))

theorem typed_waitStat {b : Bool} (hk : Typed k ∅) :
    Choices ((Op.waitStat p i b).choices me) k {.wait} := by
  rw [Op.choices]
  refine .each (fun _ _ => .cons (.waitStat hk) (.cons (.touch outer_wait (.last hk))
    (.one (.touch outer_wait (.waitStat hk))))) ?_
  cases b with
  | false => exact .one (.last hk)
  | true =>
    refine .cons (.last hk) (.one ?_)
    -- wait_stat_internal comes back from sleep with wait_lock held and acquires it again
    exact .sleep (by simp) (.again (Finset.mem_singleton_self _) outer_wait)

/-- Whatever a test finds, the code that follows keeps to the order. -/
theorem typed_choices {op : Op} (h : Typed (op :: k) H) : Choices (op.choices me) k H := by
  cases h with
  | scheduler =>
    refine .cons ?_ (.cons ?_ (.one ?_)) <;> exact .scan (fun _ => rfl) (by simp)
  | scan hr hlt => exact typed_scan hr hlt
  | test hr hlt => exact typed_test hr hlt
  | allocproc hk =>
    rw [Op.choices]
    exact .each (fun _ _ => .cons (.first (.found hk))
      (.one (.touch outer_empty (.allocproc hk)))) (.one hk)
  | found hk =>
    exact .cons (.last hk) (.cons (.newContext (.last hk))
      (.one (.newContext (.last (.first (.last (.touch outer_empty hk)))))))
  | wait hk => exact typed_wait hk
  | waitStat hk => exact typed_waitStat hk
  | reparent hk =>
    rw [Op.choices]
    exact .each (fun _ _ => .cons (.reparent hk) (.one (.wakeup outer_wait (.reparent hk)))) (.one hk)
  | wakeup ho hk =>
    rw [Op.choices]
    refine .each (fun p _ => ?_) (.one hk)
    split
    · exact .one (.wakeup ho hk)
    · exact .one (.touch ho (.wakeup ho hk))
  | search ho hk =>
    rw [Op.choices]
    exact .each (fun _ _ => .cons (.touch ho hk) (.one (.touch ho (.search ho hk)))) (.one hk)
  | updateTime ho hk =>
    rw [Op.choices]
    exact .each (fun _ _ => .one (.touch ho (.updateTime ho hk))) (.one hk)
  | sysSleep hk =>
    exact .cons (.last hk) (.cons (.killed outer_ticks (.last hk))
      (.one (.killed outer_ticks (.sleep (by simp) (.sysSleep hk)))))
  | monitor hk =>
    exact .cons (.last hk) (.cons (.killed outer_obj (.monitor hk))
      (.cons (.wakeup outer_obj (.monitor hk)) (.one (.sleep (by simp) (.monitor hk)))))
  | _ => exact nofun

/-- Interrupt handlers start and end without a lock. -/
theorem typed_kerneltrap (c : Nat) (irq : Irq) (hk : Typed k ∅) :
    Typed (kerneltrap c irq ++ k) ∅ := by
  cases irq with
  | timer =>
    have hy : Typed (.yieldIf :: k) ∅ := .yieldIf hk
    by_cases hc : c = 0
    · simp only [hc]
      exact .first (.updateTime outer_ticks (.wakeup outer_ticks (.last hy)))
    · simp only [kerneltrap, clockintr, hc]
      exact hy
  | device n => exact .first (.wakeup outer_obj (.last hk))

theorem typed_body (p : ProcId) (a : Call) : Typed (a.body p) ∅ := by
  cases a with
  | fork => exact .allocproc .nil
  | wait => exact .first (.wait .nil)
  | waitStat => exact .first (.waitStat .nil)
  | exit =>
    refine .first (.reparent (.wakeup outer_wait (.acquire (outer_wait.rank_lt p)
      (.release (by simp) ?_))))
    exact .sched .panic
  | yield => exact .yield .nil
  | search => exact .search outer_empty .nil
  | setkilled q => exact .killed outer_empty .nil
  | killed => exact .killed outer_empty .nil
  | sysSleep => exact .first (.sysSleep .nil)
  | sysUptime => exact .first (.last .nil)
  | monitor n => exact .first (.monitor .nil)

end Xv6.LockOrder
