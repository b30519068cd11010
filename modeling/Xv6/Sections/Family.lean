import Xv6.Sections.LockSteps

namespace Xv6.Sections

open Xv6.Framework Xv6.Process

variable {w w' : World} {c : Nat} {p q : ProcId} {k : Pc} {x y : Proc}

/-- The status that an exiting process was called with, until it is a zombie. -/
def Pc.status : Pc → Option Int
  | .exitLock s | .exitTime s | .exitWaiting s | .exitReparent s _ | .exitParent s
  | .exitZombie s => some s
  | .yielded k | .wakeup _ _ k => k.status
  | _ => none

/-- Whether reparent has already looked at slot i. -/
def Pc.past : Pc → ProcId → Bool
  | .exitReparent _ j, i => decide (i.val < j)
  | .exitParent _, _ | .exitZombie _, _ | .exitUnlock, _ | .exitSched, _ => true
  | .wakeup _ _ k, i => k.past i
  | _, _ => false

def alive : ProcState → Bool
  | .sleeping | .runnable | .running => true
  | _ => false

/-- A parent pointer leads to a live process that has not yet given the child away, the fork
that made the child or init once that has exited. -/
structure Parents (w : World) : Prop where
  init : alive (w.procs initproc).state = true ∧ (w.pc initproc).status = none ∧
    w.hist.ident initproc = 0
  free : ∀ i, (w.procs i).state = .unused → (w.procs i).parent = none
  live : ∀ i q, (w.procs i).parent = some q →
    alive (w.procs q).state = true ∧ (w.pc q).past i = false
  creator : ∀ i q, (w.procs i).parent = some q →
    w.hist.creator (w.hist.ident i) = w.hist.ident q ∨
      q = initproc ∧ (w.hist.exited (w.hist.creator (w.hist.ident i))).isSome = true
  pending : ∀ p np, (w.pc p).child = some np →
    w.hist.creator (w.hist.ident np) = w.hist.ident p

/-- What wait returned for a process. -/
structure Reap.Right (h : Hist) (r : Reap) : Prop where
  pid : r.pid = h.pids r.child
  status : h.exited r.child = some r.status
  parent : r.parent = h.creator r.child ∨
    r.parent = 0 ∧ (h.exited (h.creator r.child)).isSome = true

/-- The numbers of the processes in the table, and of those that have been reaped. -/
structure Idents (w : World) : Prop where
  lt : ∀ i, w.hist.ident i < w.hist.born
  inj : ∀ i j, (w.procs i).state ≠ .unused → (w.procs j).state ≠ .unused →
    w.hist.ident i = w.hist.ident j → i = j
  pids : ∀ i, (w.procs i).state ≠ .unused → w.hist.pids (w.hist.ident i) = (w.procs i).pid
  status : ∀ i s, (w.procs i).state ≠ .unused → (w.pc i).status = some s →
    w.hist.exited (w.hist.ident i) = some s
  zombie : ∀ i, (w.procs i).state = .zombie →
    w.hist.exited (w.hist.ident i) = some (w.procs i).xstate
  fresh : ∀ i, (w.procs i).state ≠ .unused → ∀ r ∈ w.hist.reaped, r.child ≠ w.hist.ident i
  old : ∀ r ∈ w.hist.reaped, r.child < w.hist.born
  once : (w.hist.reaped.map Reap.child).Nodup
  right : ∀ r ∈ w.hist.reaped, r.Right w.hist

/-- The changes of a record that keep pid, exit status and the stage of life. -/
structure Kin (x y : Proc) : Prop where
  pid : x.state ≠ .unused → y.pid = x.pid
  xstate : x.state = .zombie → y.xstate = x.xstate
  unused : y.state = .unused ↔ x.state = .unused
  zombie : y.state = .zombie ↔ x.state = .zombie
  alive : Sections.alive x.state = true → Sections.alive y.state = true

theorem Kin.of_state (h : y.state = x.state) (h2 : y.pid = x.pid) (h3 : y.xstate = x.xstate) :
    Kin x y :=
  ⟨fun _ => h2, fun _ => h3, by rw [h], by rw [h], by rw [h]; exact id⟩

theorem kin_wakeup (x : Proc) (ch : Chan) : Kin x (x.wakeup ch) := by
  unfold Proc.wakeup
  split
  case isTrue h =>
    exact ⟨fun _ => rfl, fun _ => rfl, by simp [h.1], by simp [h.1], fun _ => rfl⟩
  case isFalse => exact .of_state rfl rfl rfl

theorem kin_kill (x : Proc) : Kin x x.kill := by
  by_cases h : x.state = .sleeping
  · exact ⟨fun _ => rfl, fun _ => rfl, by simp [Proc.kill, h], by simp [Proc.kill, h],
      fun _ => by simp [Proc.kill, h, Sections.alive]⟩
  · exact .of_state (by simp [Proc.kill, h]) rfl rfl

theorem kin_updateTime (x : Proc) : Kin x x.updateTime := by
  unfold Proc.updateTime
  split <;> exact .of_state rfl rfl rfl

theorem Parents.congr (hp : Parents w) (h1 : w'.procs = w.procs) (h2 : w'.pc = w.pc)
    (h3 : w'.hist = w.hist) : Parents w' := by
  obtain ⟨a, b, c, d, e⟩ := hp
  constructor <;> simp only [h1, h2, h3] <;> assumption

theorem Idents.congr (hi : Idents w) (h1 : w'.procs = w.procs) (h2 : w'.pc = w.pc)
    (h3 : w'.hist = w.hist) : Idents w' := by
  obtain ⟨a, b, c, d, e, f, g, h, i⟩ := hi
  constructor <;> simp only [h1, h2, h3] <;> assumption

theorem Parents.setProc (hp : Parents w) (hx : Kin (w.procs q) x)
    (hpar : x.parent = (w.procs q).parent) : Parents (w.setProc q x) where
  init := by
    have h := hp.init
    have ha := hx.alive
    grind
  free i hi := by
    have h := hp.free i
    have hu := hx.unused
    grind
  live i r hr := by
    have h := hp.live i r
    have ha := hx.alive
    grind
  creator i r hr := by
    have h := hp.creator i r
    grind
  pending := hp.pending

theorem Idents.setProc (hi : Idents w) (hx : Kin (w.procs q) x) : Idents (w.setProc q x) where
  lt := hi.lt
  inj i j h1 h2 := by
    have h := hi.inj i j
    have hu := hx.unused
    grind
  pids i h1 := by
    have h := hi.pids i
    have hu := hx.unused
    have hpid := hx.pid
    grind
  status i s h1 := by
    have h := hi.status i s
    have hu := hx.unused
    grind
  zombie i h1 := by
    have h := hi.zombie i
    have hz := hx.zombie
    have hxs := hx.xstate
    grind
  fresh i h1 := by
    have h := hi.fresh i
    have hu := hx.unused
    grind
  old := hi.old
  once := hi.once
  right := hi.right

theorem Parents.setPc (hp : Parents w) (hs : k.status = none ∨ k.status = (w.pc p).status)
    (hk : k.child = none ∨ k.child = (w.pc p).child)
    (ha : ∀ i, k.past i = true → (w.pc p).past i = true ∨ (w.procs i).parent ≠ some p) :
    Parents (w.setPc p k) where
  init := by
    have h := hp.init
    grind
  free := hp.free
  live i q hq := by
    have h := hp.live i q hq
    grind
  creator := hp.creator
  pending q np hq := by
    have h := hp.pending q np
    grind

theorem Idents.setPc (hi : Idents w) (hs : k.status = none ∨ k.status = (w.pc p).status) :
    Idents (w.setPc p k) where
  lt := hi.lt
  inj := hi.inj
  pids := hi.pids
  status i s h1 := by
    have h := hi.status i s
    grind
  zombie := hi.zombie
  fresh := hi.fresh
  old := hi.old
  once := hi.once
  right := hi.right

structure Family (w : World) : Prop extends Parents w, Idents w

theorem Family.congr (hf : Family w) (h1 : w'.procs = w.procs) (h2 : w'.pc = w.pc)
    (h3 : w'.hist = w.hist) : Family w' :=
  ⟨hf.toParents.congr h1 h2 h3, hf.toIdents.congr h1 h2 h3⟩

theorem Family.setProc (hf : Family w) (hx : Kin (w.procs q) x)
    (hpar : x.parent = (w.procs q).parent) : Family (w.setProc q x) :=
  ⟨hf.toParents.setProc hx hpar, hf.toIdents.setProc hx⟩

theorem Family.setPc (hf : Family w) {k₀ : Pc} (hpc : w.pc p = k₀)
    (hs : k.status = none ∨ k.status = k₀.status) (hk : k.child = none ∨ k.child = k₀.child)
    (ha : ∀ i, k.past i = true → k₀.past i = true ∨ (w.procs i).parent ≠ some p) :
    Family (w.setPc p k) := by
  subst hpc
  exact ⟨hf.toParents.setPc hs hk ha, hf.toIdents.setPc hs⟩

theorem Family.move (hf : Family w) (h1 : w'.procs = w.procs)
    (h2 : w'.pc = Function.update w.pc p k) (h3 : w'.hist = w.hist) {k₀ : Pc} (hpc : w.pc p = k₀)
    (hs : k.status = none ∨ k.status = k₀.status) (hk : k.child = none ∨ k.child = k₀.child)
    (ha : ∀ i, k.past i = k₀.past i) : Family w' :=
  (hf.setPc hpc hs hk fun i hi => .inl (ha i ▸ hi)).congr h1 h2 h3

theorem Family.edit (hf : Family w) (h1 : w'.procs = Function.update w.procs q x)
    (h2 : w'.pc = Function.update w.pc p k) (h3 : w'.hist = w.hist) (hx : Kin (w.procs q) x)
    (hpar : x.parent = (w.procs q).parent) {k₀ : Pc} (hpc : w.pc p = k₀)
    (hs : k.status = none ∨ k.status = k₀.status) (hk : k.child = none ∨ k.child = k₀.child)
    (ha : ∀ i, k.past i = k₀.past i) : Family w' :=
  (hf.setProc hx hpar).move h1 h2 h3 hpc hs hk ha

/-- A new parent r for q. -/
theorem Family.setParent (hf : Family w) {r : ProcId} (hu : (w.procs q).state ≠ .unused)
    (ha : alive (w.procs r).state = true) (hpast : (w.pc r).past q = false)
    (hc : w.hist.creator (w.hist.ident q) = w.hist.ident r ∨
      r = initproc ∧ (w.hist.exited (w.hist.creator (w.hist.ident q))).isSome = true) :
    Family (w.setProc q { w.procs q with parent := some r }) where
  toIdents := hf.toIdents.setProc (.of_state rfl rfl rfl)
  init := by
    have h := hf.init
    grind
  free i hi := by
    have h := hf.free i
    grind
  live i s hs := by
    have h := hf.live i s
    grind
  creator i s hs := by
    have h := hf.creator i s
    grind
  pending := hf.pending

end Xv6.Sections
