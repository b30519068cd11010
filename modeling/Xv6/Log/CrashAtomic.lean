import Xv6.Log.Commit

namespace Xv6.Log

open Xv6.Framework

variable {g : Geometry} {w w' : World}

/-- Every operation's log_writes stay together: while it runs they are all in the current group,
afterwards all in one group. -/
structure Whole (w : World) : Prop where
  active : ∀ o ∈ w.active, o < w.hist.nextOp
  unused : ∀ o, w.hist.nextOp ≤ o → w.hist.writes o = []
  live : ∀ o ∈ w.active, w.hist.cur.filter (·.op = o) = w.hist.writes o
  cur : ∀ x ∈ w.hist.cur, x.op < w.hist.nextOp ∧
    w.hist.cur.filter (·.op = x.op) = w.hist.writes x.op
  called : ∀ gr ∈ w.hist.called, ∀ x ∈ gr, x.op < w.hist.nextOp ∧ x.op ∉ w.active ∧
    gr.filter (·.op = x.op) = w.hist.writes x.op

/-- Steps that neither start, extend nor end an operation. -/
theorem Whole.frame (hw : Whole w) (ha : w'.active = w.active)
    (hc : w'.hist.called = w.hist.called) (hcur : w'.hist.cur = w.hist.cur)
    (hwr : w'.hist.writes = w.hist.writes) (hn : w'.hist.nextOp = w.hist.nextOp) : Whole w' := by
  refine ⟨?_, ?_, ?_, ?_, ?_⟩
  · rw [ha, hn]; exact hw.active
  · rw [hwr, hn]; exact hw.unused
  · rw [ha, hcur, hwr]; exact hw.live
  · rw [hcur, hwr, hn]; exact hw.cur
  · rw [ha, hc, hwr, hn]; exact hw.called

theorem whole_init (h : Init g w) : Whole w := by
  obtain ⟨disk, _, rfl⟩ := h
  exact ⟨by simp, by simp, by simp, by simp, by simp⟩

theorem whole_crash (hw : Whole w) : Whole (crash w) :=
  ⟨by simp [crash], hw.unused, by simp [crash], by simp [crash], fun gr hg x hx =>
    ⟨(hw.called gr hg x hx).1, by simp [crash], (hw.called gr hg x hx).2.2⟩⟩

theorem whole_proceed (hi : Inv g w) (hw : Whole w) (h : proceed g w = some w') :
    Whole w' := by
  unfold proceed at h
  cases hpc : w.pc with
  | idle | panic => simp [hpc] at h
  | writeLog t | install t | recover t =>
    simp only [hpc] at h
    cases hb : w.log.lh[t]? <;> simp only [hb] at h <;> cases h <;>
      exact hw.frame rfl rfl rfl rfl rfl
  | writeHead | clear | finish | readHead =>
    simp only [hpc] at h
    cases h
    exact hw.frame rfl rfl rfl rfl rfl
  | recoverClear =>
    simp only [hpc] at h
    cases h
    have ha : w.active = ∅ := (hi.ctl.busy (by rw [hpc]; rfl)).1
    refine ⟨hw.active, hw.unused, ?_, by simp, by simp⟩
    intro o ho
    change o ∈ w.active at ho
    simp [ha] at ho

theorem whole_beginOp (hw : Whole w) : Whole (beginOp w) := by
  have hcur (x : Write) (hx : x ∈ w.hist.cur) := (hw.cur x hx).1
  refine ⟨?_, fun o ho => hw.unused o (by simp only [beginOp] at ho; omega), ?_, ?_, ?_⟩
  · intro o ho
    rcases Finset.mem_insert.mp ho with rfl | ho
    · exact Nat.lt_succ_self _
    · exact Nat.lt_succ_of_lt (hw.active o ho)
  · intro o ho
    rcases Finset.mem_insert.mp ho with rfl | ho
    · change w.hist.cur.filter (·.op = w.hist.nextOp) = w.hist.writes w.hist.nextOp
      rw [hw.unused _ (le_refl _), List.filter_eq_nil_iff]
      intro x hx
      have := hcur x hx
      simp only [decide_eq_true_eq]
      omega
    · exact hw.live o ho
  · exact fun x hx => ⟨Nat.lt_succ_of_lt (hcur x hx), (hw.cur x hx).2⟩
  · intro gr hg x hx
    obtain ⟨h1, h2, h3⟩ := hw.called gr hg x hx
    refine ⟨Nat.lt_succ_of_lt h1, fun hm => ?_, h3⟩
    rcases Finset.mem_insert.mp hm with he | hm
    · omega
    · exact h2 hm

theorem whole_doLogWrite (hw : Whole w) {op : Nat} (ho : op ∈ w.active) (b : Nat) (d : Data) :
    Whole (doLogWrite g w op b d) := by
  unfold doLogWrite
  cases logWrite g w.log b with
  | error msg => exact hw.frame rfl rfl rfl rfl rfl
  | ok lg =>
    -- the new write extends both the current group and the record of its own operation
    have key (o : Nat) (h : w.hist.cur.filter (·.op = o) = w.hist.writes o) :
        (w.hist.cur ++ [(⟨op, b, d⟩ : Write)]).filter (·.op = o) =
          Function.update w.hist.writes op (w.hist.writes op ++ [⟨op, b, d⟩]) o := by
      rw [List.filter_append, h]
      by_cases hop : o = op
      · subst hop
        simp
      · simp [hop, Ne.symm hop]
    have hlt := hw.active op ho
    refine ⟨hw.active, fun o h => ?_, fun o h => key o (hw.live o h), ?_, ?_⟩
    · have hne : o ≠ op := by simp only at h; omega
      exact (Function.update_of_ne hne _ _).trans (hw.unused o h)
    · intro x hx
      rcases List.mem_append.mp hx with hx | hx
      · exact ⟨(hw.cur x hx).1, key x.op (hw.cur x hx).2⟩
      · obtain rfl := List.mem_singleton.mp hx
        exact ⟨hlt, key op (hw.live op ho)⟩
    · intro gr hg x hx
      obtain ⟨h1, h2, h3⟩ := hw.called gr hg x hx
      refine ⟨h1, h2, h3.trans (Function.update_of_ne ?_ _ _).symm⟩
      exact fun h => h2 (h ▸ ho)

theorem whole_endOp (hi : Inv g w) (hw : Whole w) {op : Nat} (ho : op ∈ w.active) :
    Whole (endOp w op) := by
  have hlt (o : Nat) (h : o ∈ w.active.erase op) : o < w.hist.nextOp :=
    hw.active o (Finset.mem_of_mem_erase h)
  have hcalled (gr : List Write) (hg : gr ∈ w.hist.called) (x : Write) (hx : x ∈ gr) :
      x.op < w.hist.nextOp ∧ x.op ∉ w.active.erase op ∧
        gr.filter (·.op = x.op) = w.hist.writes x.op :=
    have h := hw.called gr hg x hx
    ⟨h.1, fun hm => h.2.1 (Finset.mem_of_mem_erase hm), h.2.2⟩
  have hkeep : Whole { w with active := w.active.erase op } :=
    ⟨hlt, hw.unused, fun o h => hw.live o (Finset.mem_of_mem_erase h), hw.cur, hcalled⟩
  unfold endOp
  dsimp only
  split_ifs with hc h0 hlh
  · exact hkeep.frame rfl rfl rfl rfl rfl
  all_goals first
    | exact hkeep.frame rfl rfl rfl rfl rfl
    | skip
  all_goals
    have hcard : w.active.erase op = ∅ := by
      have hout := hi.ctl.outstanding
      apply Finset.card_eq_zero.mp
      rw [Finset.card_erase_of_mem ho]
      omega
    refine ⟨hlt, hw.unused, by simp [hcard], by simp, ?_⟩
    intro gr hg x hx
    rcases List.mem_append.mp hg with hg | hg
    · exact hcalled gr hg x hx
    · obtain rfl := List.mem_singleton.mp hg
      exact ⟨(hw.cur x hx).1, by simp [hcard], (hw.cur x hx).2⟩

theorem next_spec {a : Label} (hi : Inv g w) (hw : Whole w) (h : next g w a = some w') :
    Inv g w' ∧ Whole w' := by
  cases a with
  | crash =>
    cases h
    exact ⟨inv_crash hi, whole_crash hw⟩
  | proceed => exact ⟨inv_proceed hi h, whole_proceed hi hw h⟩
  | bread b =>
    cases h
    exact ⟨inv_load hi b, hw.frame rfl rfl rfl rfl rfl⟩
  | recycle b =>
    simp only [next] at h
    split_ifs at h with hb
    cases h
    exact ⟨inv_recycle hi hb, hw.frame rfl rfl rfl rfl rfl⟩
  | beginOp =>
    simp only [next] at h
    split_ifs at h with hc
    cases h
    exact ⟨inv_beginOp hi (idle_of_admits hi hc.1 hc.2) fun hm => (hw.active _ hm).false,
      whole_beginOp hw⟩
  | logWrite op b d =>
    simp only [next] at h
    split_ifs at h with hc
    cases h
    exact ⟨inv_doLogWrite hi (idle_of_active hi hc.1 hc.2.1) op d hc.2.2,
      whole_doLogWrite hw hc.2.1 b d⟩
  | endOp op =>
    simp only [next] at h
    split_ifs at h with hc
    cases h
    exact ⟨inv_endOp hi (idle_of_active hi hc.1 hc.2) hc.2, whole_endOp hi hw hc.2⟩

/-- Both invariants hold around every step of every run. -/
theorem run_spec {w₀ : World} {tr : List (Event World Label)} (h₀ : Init g w₀)
    (hp : Path (next g) w₀ tr w) {e : Event World Label} (he : e ∈ tr) :
    (Inv g e.pre ∧ Whole e.pre) ∧ Inv g e.post ∧ Whole e.post := by
  apply hp.invariant_mem (I := fun w => Inv g w ∧ Whole w) (C := fun _ => True) _ _ _ he
  · intro s a t hs hn _
    exact next_spec hs.1 hs.2 hn
  · exact ⟨inv_init h₀, whole_init h₀⟩
  · intro _ _
    trivial

def blank : World :=
  ⟨fun _ _ => 0, fun _ => none, fun _ => 0, LogState.empty, ∅, .readHead,
    ⟨fun _ _ => 0, [], 0, [], fun _ => [], 0⟩⟩

/-- Boot, one operation that writes block 45, a crash right after the commit record and another
one in the middle of the recovery. -/
def crashRun : List Label :=
  [.proceed, .proceed, .proceed, .beginOp, .logWrite 0 45 (fun _ => 7), .endOp 0, .proceed,
    .proceed, .proceed, .crash, .proceed, .proceed, .crash, .proceed, .proceed, .proceed,
    .proceed]

end Xv6.Log
