import Xv6.Log.CrashAtomic
import Mathlib.Order.Interval.Finset.Nat

namespace Xv6.Log

open Xv6.Framework

variable {g : Geometry} {w w' : World} {tr : List (Event World Label)}

/-- The distinct blocks that the operations of the group being collected have logged so far. -/
def World.groupBlocks (w : World) : Finset Nat := (w.hist.cur.map Write.blockno).toFinset

def opBlocks (op : Nat) (as : List Label) : Finset Nat :=
  (as.filterMap fun a => match a with
    | .logWrite o b _ => if o = op then some b else none
    | _ => none).toFinset

def Label.isLogWrite : Label → Bool
  | .logWrite _ _ _ => true
  | _ => false

def LogWritePanics (e : Event World Label) : Prop :=
  e.label.isLogWrite = true ∧ ∃ msg, e.post.pc = .panic msg

theorem groupBlocks_card (hi : Inv g w) (hpc : w.pc = .idle) :
    w.groupBlocks.card = w.log.lh.length := by
  have hcur := hi.ctl.cur (by rw [hpc]; rfl)
  have hset : w.groupBlocks = w.log.lh.toFinset := by
    ext b
    simp [World.groupBlocks, hcur]
  rw [hset, List.toFinset_card_of_nodup hi.lh.nodup]

/-- With the geometry of mkfs the capacity test fails from LOGSIZE - 1 entries on. -/
theorem logWrite_error_iff {lg : LogState} (b : Nat) (ho : 1 ≤ lg.outstanding) :
    (∃ msg, logWrite mkfsGeometry lg b = .error msg) ↔ LOGSIZE - 1 ≤ lg.lh.length := by
  have hout : ¬ lg.outstanding < 1 := by omega
  have hsize : mkfsGeometry.size = LOGSIZE := rfl
  simp only [logWrite, hout]
  constructor
  · intro h
    by_contra hlt
    rw [if_neg (by omega)] at h
    simp at h
  · intro hle
    rw [if_pos (by omega)]
    exact ⟨_, rfl⟩

/-- One log_write of an outstanding operation panics exactly when the group is that large. -/
theorem doLogWrite_panics_iff (hi : Inv mkfsGeometry w) (hup : w.pc.up = true) {op : Nat}
    (ho : op ∈ w.active) (b : Nat) (d : Data) :
    (∃ msg, (doLogWrite mkfsGeometry w op b d).pc = .panic msg) ↔
      LOGSIZE - 1 ≤ w.groupBlocks.card := by
  have hpc := idle_of_active hi hup ho
  have hout : 1 ≤ w.log.outstanding := by
    rw [hi.ctl.outstanding]
    exact_mod_cast Finset.card_pos.mpr ⟨op, ho⟩
  rw [groupBlocks_card hi hpc, ← logWrite_error_iff b hout]
  unfold doLogWrite
  cases logWrite mkfsGeometry w.log b with
  | error msg => simp
  | ok lg => simp [hpc]

/-- No log_write of a run panics if and only if none is made in a group that already has
LOGSIZE - 1 distinct blocks, absorbed or not. -/
theorem log_write_safe_iff {w₀ : World} (h₀ : Init mkfsGeometry w₀)
    (hp : Path (next mkfsGeometry) w₀ tr w) :
    (∀ e ∈ tr, ¬ LogWritePanics e) ↔
      ∀ e ∈ tr, e.label.isLogWrite = true → e.pre.groupBlocks.card < LOGSIZE - 1 := by
  refine forall₂_congr fun e he => ?_
  have hinv := run_spec h₀ hp he
  have hstep := hp.step_of_mem he
  rw [LogWritePanics, not_and]
  refine forall_congr' fun hl => ?_
  obtain ⟨op, b, d, hlab⟩ : ∃ op b d, e.label = .logWrite op b d := by
    cases h : e.label <;> simp_all [Label.isLogWrite]
  rw [hlab, next] at hstep
  split at hstep
  case isTrue hg =>
    rw [← Option.some.inj hstep, doLogWrite_panics_iff hinv.1.1 hg.1 hg.2.1 b d, not_le]
  case isFalse => simp at hstep

theorem log_write_safe_crashRun :
    (∃ e ∈ events (next mkfsGeometry) blank crashRun, e.label.isLogWrite = true) ∧
      ∀ e ∈ events (next mkfsGeometry) blank crashRun, ¬ LogWritePanics e :=
  ⟨by decide, (log_write_safe_iff ⟨fun _ _ => 0, rfl, rfl⟩ (path_of_exec rfl)).mpr (by decide)⟩

/-- Three operations are admitted together and log ten blocks each. -/
def fullGroup : List Label :=
  [.proceed, .proceed, .proceed, .beginOp, .beginOp, .beginOp] ++
    (List.range 30).map fun i => .logWrite (i / 10) (45 + i) fun _ => 0

theorem fullGroup_bounded (op : Nat) : (opBlocks op fullGroup).card ≤ MAXOPBLOCKS := by
  have hsub : opBlocks op fullGroup ⊆ Finset.Ico (45 + 10 * op) (55 + 10 * op) := by
    intro b hb
    simp only [opBlocks, fullGroup, List.mem_toFinset, List.mem_filterMap, List.mem_append,
      List.mem_map] at hb
    obtain ⟨a, ha | ⟨i, hi, rfl⟩, hab⟩ := hb
    · simp only [List.mem_cons, List.not_mem_nil, or_false] at ha
      rcases ha with rfl | rfl | rfl | rfl | rfl | rfl <;> simp at hab
    · simp only [Option.ite_none_right_eq_some, Option.some.injEq] at hab
      rw [Finset.mem_Ico]
      omega
  calc (opBlocks op fullGroup).card
      ≤ (Finset.Ico (45 + 10 * op) (55 + 10 * op)).card := Finset.card_le_card hsub
    _ = MAXOPBLOCKS := by rw [Nat.card_Ico, MAXOPBLOCKS]; omega

theorem fullGroup_panics :
    ¬ ∀ (w₀ w : World) (tr : List (Event World Label)), Init mkfsGeometry w₀ →
      Path (next mkfsGeometry) w₀ tr w →
      (∀ op, (opBlocks op (tr.map Event.label)).card ≤ MAXOPBLOCKS) →
      ∀ e ∈ tr, ¬ LogWritePanics e := by
  intro h
  obtain ⟨w, hw⟩ := Option.isSome_iff_exists.mp
    (rfl : (exec (next mkfsGeometry) blank fullGroup).isSome = true)
  have hmem := List.getElem_mem (l := events (next mkfsGeometry) blank fullGroup) (n := 35)
    (by decide)
  refine h blank w _ ⟨fun _ _ => 0, rfl, rfl⟩ (path_of_exec hw) ?_ _ hmem
    ⟨rfl, "too big a transaction", rfl⟩
  rw [events_labels hw]
  exact fullGroup_bounded

end Xv6.Log
