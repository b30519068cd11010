import Xv6.LockOrder.Typing
import Xv6.Framework.LockOrder

namespace Xv6.LockOrder

open Xv6.Framework Xv6.Process

/-- What a CPU executes with the locks of H held keeps to the order, and so does the context to
which its process will switch back. Right before swtch that context is still to be written. -/
inductive Ready (x : Cpu) (H : Finset Lock) : Prop
  | code (ht : Typed x.ops H) (hb : ∀ p, x.proc = some p → Typed x.context {.proc p})
  | swtch {p : ProcId} {k : List Op} (hops : x.ops = .swtch p :: k) (hp : x.proc = some p)
      (hH : H = {.proc p}) (hk : Typed k {.proc p})

structure Sound (lock : Lock → Option Nat) (c : Nat) (x : Cpu) (H : Finset Lock) : Prop where
  holds : ∀ l, lock l = some c ↔ l ∈ H
  noff : x.noff = H.card
  ready : Ready x H

/-- Every CPU and every saved context keeps to the lock order. -/
structure Inv (w : World) : Prop where
  cpu : ∀ c, ∃ H, Sound w.lock c (w.cpu c) H
  context : ∀ p, Typed (w.context p) {.proc p}

variable {w w' : World} {c d n : Nat} {p : ProcId} {l : Lock} {op : Op} {k j : List Op}
  {H H' : Finset Lock} {a : Label} {x : Cpu} {tr : List (Event World Label)}

theorem Inv.step (hi : Inv w) (hcpu : w'.cpu = update w.cpu c x)
    (hlock : ∀ d l, d ≠ c → (w'.lock l = some d ↔ w.lock l = some d))
    (hs : Sound w'.lock c x H) (hctx : ∀ p, Typed (w'.context p) {.proc p}) : Inv w' := by
  refine ⟨fun d => ?_, hctx⟩
  by_cases hd : d = c
  · subst hd
    rw [hcpu, update_self]
    exact ⟨H, hs⟩
  · obtain ⟨H, h⟩ := hi.cpu d
    rw [hcpu, update_of_ne hd]
    exact ⟨H, fun l => (hlock d l hd).trans (h.holds l), h.noff, h.ready⟩

theorem Inv.goto (hi : Inv w) (hs : Sound w.lock c (w.cpu c) H) (hn : x.noff = (w.cpu c).noff)
    (hr : Ready x H) : Inv (w.setCpu c x) :=
  hi.step rfl (fun _ _ _ => Iff.rfl) ⟨hs.holds, hn.trans hs.noff, hr⟩ hi.context

theorem Sound.code (hs : Sound w.lock c (w.cpu c) H) (hops : (w.cpu c).ops = k)
    (hk : ∀ p k', k ≠ .swtch p :: k') :
    Typed k H ∧ ∀ p, (w.cpu c).proc = some p → Typed (w.cpu c).context {.proc p} := by
  subst hops
  cases hs.ready with
  | code ht hb => exact ⟨ht, hb⟩
  | swtch hops => exact absurd hops (hk _ _)

/-- CPU c takes or gives up one lock. -/
theorem Inv.setLock {v : Option Nat} (hi : Inv w) (hs : Sound w.lock c (w.cpu c) H)
    (hl : ∀ d, d ≠ c → w.lock l ≠ some d ∧ v ≠ some d)
    (hH : ∀ m, m ∈ H' ↔ if m = l then v = some c else m ∈ H) (hn : x.noff = H'.card)
    (hr : Ready x H') : Inv ((w.setLock l v).setCpu c x) := by
  refine hi.step rfl (fun d m hd => ?_) ⟨fun m => ?_, hn, hr⟩ hi.context
  · simp only [World.setCpu, World.setLock, update_apply]
    split
    case isTrue h =>
      rw [h]
      exact iff_of_false (hl d hd).2 (hl d hd).1
    case isFalse => rfl
  · rw [hH, ← hs.holds m]
    simp only [World.setCpu, World.setLock, update_apply]
    split
    case isTrue => rfl
    case isFalse => rfl

theorem inv_acquire (hi : Inv w) (hops : (w.cpu c).ops = .acquire l :: k)
    (hl : w.lock l = none) :
    Inv ((w.setLock l (some c)).setCpu c
      { w.cpu c with noff := (w.cpu c).noff + 1, ops := k }) := by
  obtain ⟨H, hs⟩ := hi.cpu c
  obtain ⟨ht, hb⟩ := hs.code hops (by simp)
  have hno : l ∉ H := by
    rw [← hs.holds l, hl]
    simp
  have hk : Typed k (insert l H) := by
    cases ht with
    | acquire _ hk => exact hk
    | again hl => exact absurd hl hno
  refine hi.setLock hs (fun d hd => ?_) (fun m => ?_) ?_ (.code hk hb)
  · simp [hl, Ne.symm hd]
  · by_cases h : m = l <;> simp [h]
  · rw [Finset.card_insert_of_notMem hno, ← hs.noff]

theorem inv_release (hi : Inv w) (hops : (w.cpu c).ops = .release l :: k)
    (hl : w.lock l = some c) :
    Inv ((w.setLock l none).setCpu c
      { w.cpu c with noff := (w.cpu c).noff - 1, ops := k }) := by
  obtain ⟨H, hs⟩ := hi.cpu c
  obtain ⟨ht, hb⟩ := hs.code hops (by simp)
  have hin := (hs.holds l).mp hl
  have hk : Typed k (H.erase l) := by
    cases ht with
    | release _ hk => exact hk
  refine hi.setLock hs (fun d hd => ?_) (fun m => ?_) ?_ (.code hk hb)
  · simp [hl, Ne.symm hd]
  · by_cases h : m = l <;> simp [h]
  · rw [Finset.card_erase_of_mem hin, ← hs.noff]

/-- sched() gives the CPU back to its scheduler with the lock of the process held. -/
theorem inv_sched (hi : Inv w) (hops : (w.cpu c).ops = .sched :: k)
    (h : schedAt w c k = some w') : Inv w' := by
  obtain ⟨H, hs⟩ := hi.cpu c
  obtain ⟨ht, hb⟩ := hs.code hops (by simp)
  unfold schedAt at h
  cases hp : (w.cpu c).proc with
  | none => simp [hp] at h
  | some p =>
    simp only [hp] at h
    split at h
    case isFalse => cases h
    case isTrue hl =>
      cases h
      cases ht with
      | @sched q _ hk =>
        have hpq : p = q := by
          have := (hs.holds _).mp hl.1
          simpa using this
        subst hpq
        refine hi.step rfl (fun _ _ _ => Iff.rfl)
          ⟨hs.holds, hs.noff, .code (hb p hp) (hp ▸ hb)⟩ fun r => ?_
        simp only [World.setCpu, World.setContext, update_apply]
        split
        case isTrue h =>
          subst h
          exact hk
        case isFalse => exact hi.context r

theorem inv_execOp (hi : Inv w) (hops : (w.cpu c).ops = op :: k)
    (h : execOp w c n op k = some w') : Inv w' := by
  obtain ⟨H, hs⟩ := hi.cpu c
  have hchoice (hne : ∀ p k', op :: k ≠ .swtch p :: k')
      (h : ((op.choices (w.cpu c).proc)[n]?.map fun j =>
        w.setCpu c { w.cpu c with ops := j ++ k }) = some w') : Inv w' := by
    obtain ⟨j, hj, rfl⟩ := Option.map_eq_some_iff.mp h
    obtain ⟨ht, hb⟩ := hs.code hops hne
    exact hi.goto hs rfl (.code (typed_choices ht _ (List.mem_of_getElem? hj)) hb)
  cases op with
  | acquire l =>
    simp only [execOp] at h
    split at h
    case isFalse => cases h
    case isTrue hl =>
      cases h
      exact inv_acquire hi hops hl
  | release l =>
    simp only [execOp] at h
    split at h
    case isFalse => cases h
    case isTrue hl =>
      cases h
      exact inv_release hi hops hl
  | sched => exact inv_sched hi hops h
  | setProc p =>
    cases h
    obtain ⟨ht, -⟩ := hs.code hops (by simp)
    cases ht with
    | setProc hk => exact hi.goto hs rfl (.swtch rfl rfl rfl hk)
  | swtch p =>
    cases h
    cases hs.ready with
    | code ht =>
      rw [hops] at ht
      cases ht
    | @swtch q _ hops' hp hH hk =>
      rw [hops] at hops'
      injection hops' with h1 h2
      injection h1 with h1
      subst h1 h2 hH
      refine hi.goto hs rfl (.code (hi.context p) fun q hq => ?_)
      rw [hp] at hq
      cases hq
      exact hk
  | clearProc =>
    cases h
    obtain ⟨ht, -⟩ := hs.code hops (by simp)
    cases ht with
    | clearProc hk => exact hi.goto hs rfl (.code hk fun p hp => by cases hp)
  | newContext p =>
    cases h
    obtain ⟨ht, hb⟩ := hs.code hops (by simp)
    cases ht with
    | newContext hk =>
      refine hi.step rfl (fun _ _ _ => Iff.rfl) ⟨hs.holds, hs.noff, .code hk hb⟩ fun q => ?_
      simp only [World.setCpu, World.setContext, update_apply]
      split
      case isTrue h =>
        subst h
        exact .last .nil
      case isFalse => exact hi.context q
  | yieldIf =>
    obtain ⟨ht, hb⟩ := hs.code hops (by simp)
    cases ht with
    | yieldIf hk =>
      simp only [execOp] at h
      cases hp : (w.cpu c).proc with
      | none =>
        simp only [hp, Option.some.injEq] at h
        subst h
        exact hi.goto hs rfl (.code hk fun p hp => by cases hp)
      | some p =>
        simp only [hp, Option.some.injEq] at h
        subst h
        exact hi.goto hs rfl (.code (.yield hk) (hp ▸ hb))
  | panic => cases h
  | _ => exact hchoice (by simp) h

theorem inv_next (hi : Inv w) (h : next w a = some w') : Inv w' := by
  cases a with
  | exec c n =>
    simp only [next] at h
    split at h
    case h_1 op k hops => exact inv_execOp hi hops h
    case h_2 => cases h
  | interrupt c irq =>
    obtain ⟨H, hs⟩ := hi.cpu c
    simp only [next] at h
    split at h
    case isFalse => cases h
    case isTrue hn =>
      cases h
      obtain rfl : H = ∅ := Finset.card_eq_zero.mp (hs.noff.symm.trans hn)
      cases hs.ready with
      | code ht hb => exact hi.goto hs rfl (.code (typed_kerneltrap c irq ht) hb)
      | swtch _ _ hH => simp at hH
  | call c a =>
    obtain ⟨H, hs⟩ := hi.cpu c
    simp only [next] at h
    split at h
    case h_1 p hops hp =>
      cases h
      obtain ⟨ht, hb⟩ := hs.code hops (by simp)
      cases ht with
      | nil => exact hi.goto hs rfl (.code (typed_body p a) hb)
    case h_2 => cases h

theorem inv_boot : Inv boot where
  cpu c := ⟨∅, by simp [boot], rfl, .code .scheduler fun p hp => by cases hp⟩
  context p := .last .nil

theorem inv_run (h : Path next boot tr w) : Inv w :=
  h.invariant (fun _ _ _ hi hn _ => inv_next hi hn) inv_boot
    fun _ _ => trivial

def Spins (w : World) (c : Nat) (l : Lock) : Prop :=
  (w.cpu c).ops.head? = some (.acquire l) ∧ ∃ d, d ≠ c ∧ w.lock l = some d

def Lock.ofTable : Lock → Bool
  | .obj _ => false
  | _ => true

/-- CPU c waits for CPU d on one of these locks. -/
def Blocks (w : World) : Nat → Nat → Prop :=
  WaitsFor (fun c l => Lock.ofTable l = true ∧ Spins w c l) fun d l => w.lock l = some d

/-- A CPU that acquires a lock holds only locks of lower rank, or the lock itself. -/
theorem Inv.acquiring (hi : Inv w) (h : (w.cpu c).ops.head? = some (.acquire l)) :
    (∀ l', w.lock l' = some c → rank l' < rank l) ∨
      w.lock l = some c ∧ ∀ p, w.lock (.proc p) ≠ some c := by
  obtain ⟨H, hs⟩ := hi.cpu c
  obtain ⟨k, hops⟩ := List.head?_eq_some_iff.mp h
  obtain ⟨ht, -⟩ := hs.code hops (by simp)
  cases ht with
  | acquire hl => exact .inl fun l' hl' => hl l' ((hs.holds l').mp hl')
  | again hl ho =>
    exact .inr ⟨(hs.holds l).mpr hl, fun p hp => ho p ((hs.holds (.proc p)).mp hp)⟩

theorem Inv.spinning (hi : Inv w) {l' : Lock} (h : Spins w c l) (hl : w.lock l' = some c) :
    rank l' < rank l := by
  obtain ⟨hhead, d, hd, hlock⟩ := h
  rcases hi.acquiring hhead with hlt | ⟨hself, -⟩
  · exact hlt l' hl
  · rw [hlock] at hself
    exact absurd (Option.some.inj hself) hd

/-- In every state that the CPUs can reach, the locks of the process table are taken in one
order, so that no CPUs wait for each other in a circle. -/
theorem locks_in_order (h : Path next boot tr w) :
    (∀ c i j, Spins w c (.proc j) → w.lock (.proc i) = some c → i < j) ∧
    (∀ c l, (w.cpu c).ops.head? = some (.acquire l) → l = .wait ∨ l = .ticks →
      ∀ p, w.lock (.proc p) ≠ some c) ∧
    ∀ c, ¬ Relation.TransGen (Blocks w) c c := by
  have hi := inv_run h
  refine ⟨fun c i j hs hl => ?_, fun c l hh hl p hp => ?_, no_circular_wait rank ?_⟩
  · exact Nat.lt_of_succ_lt_succ (hi.spinning hs hl)
  · rcases hi.acquiring hh with hlt | ⟨-, hno⟩
    · rcases hl with rfl | rfl <;> exact absurd (hlt _ hp) (Nat.not_lt_zero _)
    · exact hno p hp
  · intro c l l' hs hl
    exact hi.spinning hs.2 hl

/-- CPU 1 holds the lock of slot 1, for which CPU 0 waits in a scan that has chosen slot 0. -/
def handOver : List Label :=
  List.replicate 7 (.exec 1 0) ++ [.exec 0 1, .exec 0 0, .exec 0 0, .exec 0 1, .exec 0 0]

theorem locks_in_order_handOver :
    Spins (final next boot handOver) 0 (.proc 1) ∧
      (final next boot handOver).lock (.proc 0) = some 0 ∧ (0 : ProcId) < 1 ∧
      ¬ Relation.TransGen (Blocks (final next boot handOver)) 0 0 := by
  have hp : Path next boot _ (final next boot handOver) := path_final rfl
  obtain ⟨hlt, -, hno⟩ := locks_in_order hp
  have hspin : Spins (final next boot handOver) 0 (.proc 1) := ⟨rfl, 1, by decide, rfl⟩
  exact ⟨hspin, rfl, hlt 0 0 1 hspin rfl, hno 0⟩

end Xv6.LockOrder
