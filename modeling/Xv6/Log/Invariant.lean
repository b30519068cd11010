import Xv6.Log.Replay

namespace Xv6.Log

open Xv6.Framework

variable {g : Geometry} {w w' : World}

/-- The blocks whose buffers log_write has pinned and install_trans has not yet unpinned. -/
def pinned (w : World) : List Nat :=
  match w.pc with
  | .idle | .panic _ | .writeLog _ | .writeHead => w.log.lh
  | .install t => w.log.lh.drop t
  | _ => []

/-- The first t log blocks hold the contents of the group being committed. -/
def Logged (g : Geometry) (w : World) (t : Nat) : Prop :=
  ∀ i b, i < t → w.log.lh[i]? = some b → w.disk (g.start + i + 1) = w.full b

/-- The disk recovers to the store after k groups, all returned commits among them. -/
def Recovers (w : World) (k : Nat) : Prop :=
  w.hist.returned ≤ k ∧ k ≤ w.hist.called.length

/-- Header, log blocks, home blocks and cache at each point of commit() and recovery. -/
def Phase (g : Geometry) (w : World) : Prop :=
  match w.pc with
  | .idle | .panic _ =>
    getHead (w.disk g.start) = [] ∧ (∀ b, Home g b → w.disk b = w.full b) ∧
      ∀ b, Home g b → w.bread b = applyWrites w.full (w.hist.cur.map Write.pair) b
  | .writeLog t =>
    getHead (w.disk g.start) = [] ∧ w.hist.returned < w.hist.called.length ∧
      (∀ b, Home g b → w.disk b = w.spec (w.hist.called.length - 1) b) ∧
      (∀ b, Home g b → w.bread b = w.full b) ∧ Logged g w t
  | .writeHead =>
    getHead (w.disk g.start) = [] ∧ w.hist.returned < w.hist.called.length ∧
      (∀ b, Home g b → w.disk b = w.spec (w.hist.called.length - 1) b) ∧
      (∀ b, Home g b → w.bread b = w.full b) ∧ Logged g w w.log.lh.length
  | .install t =>
    getHead (w.disk g.start) = w.log.lh ∧ Logged g w w.log.lh.length ∧
      (∀ b, Home g b → b ∉ w.log.lh.drop t → w.disk b = w.full b) ∧
      ∀ b, Home g b → w.bread b = w.full b
  | .clear =>
    getHead (w.disk g.start) = w.log.lh ∧ Logged g w w.log.lh.length ∧
      ∀ b, Home g b → w.disk b = w.full b
  | .finish =>
    getHead (w.disk g.start) = [] ∧ w.log.lh = [] ∧ ∀ b, Home g b → w.disk b = w.full b
  | .readHead => ∃ k, Recovers w k ∧ ∀ b, Home g b → replay g w.disk b = w.spec k b
  | .recover t =>
    getHead (w.disk g.start) = w.log.lh ∧
      ∃ k, Recovers w k ∧ (∀ b, Home g b → replay g w.disk b = w.spec k b) ∧
        ∀ b, Home g b → b ∉ w.log.lh.drop t → w.disk b = w.spec k b
  | .recoverClear =>
    getHead (w.disk g.start) = w.log.lh ∧ ∃ k, Recovers w k ∧
      (∀ b, Home g b → replay g w.disk b = w.spec k b) ∧ ∀ b, Home g b → w.disk b = w.spec k b

/-- No commit and no recovery is under way. -/
def Pc.quiet : Pc → Bool
  | .idle | .panic _ => true
  | _ => false

def Pc.commits : Pc → Bool
  | .writeLog _ | .writeHead | .install _ | .clear | .finish => true
  | _ => false

/-- Operations in flight, the committing flag and the group collected so far. -/
structure Ctl (w : World) : Prop where
  outstanding : w.log.outstanding = w.active.card
  busy : w.pc.quiet = false → w.active = ∅ ∧ w.hist.cur = []
  committing : w.log.committing = w.pc.commits
  cur : w.pc.quiet = true → ∀ b, b ∈ w.log.lh ↔ ∃ x ∈ w.hist.cur, x.blockno = b
  returned : w.hist.returned ≤ w.hist.called.length

/-- A step of commit() or of recovery keeps the control part. -/
theorem Ctl.step {pc : Pc} (hc : Ctl w) (hpc : w.pc = pc) (hq : pc.quiet = false)
    (hq' : w'.pc.quiet = false) (ha : w'.active = w.active)
    (hl : w'.log.outstanding = w.log.outstanding) (hm : w'.log.committing = w.log.committing)
    (hk : w'.pc.commits = pc.commits) (hcur : w'.hist.cur = w.hist.cur)
    (hr : w'.hist.returned ≤ w'.hist.called.length) : Ctl w' := by
  subst hpc
  refine ⟨by rw [hl, ha]; exact hc.outstanding, fun _ => ?_, ?_, fun h => ?_, hr⟩
  · rw [ha, hcur]
    exact hc.busy hq
  · rw [hm, hk, hc.committing]
  · rw [hq'] at h
    exact absurd h (by decide)

structure Inv (g : Geometry) (w : World) : Prop where
  head : LhOk g (getHead (w.disk g.start))
  lh : LhOk g w.log.lh
  pins : ∀ b, w.pins b = if b ∈ pinned w then 1 else 0
  clean : ∀ b, b ∉ pinned w → w.bread b = w.disk b
  ctl : Ctl w
  phase : Phase g w

@[simp] theorem bread_load (w : World) (b : Nat) : (w.load b).bread = w.bread := by
  funext x
  by_cases h : x = b <;> simp [World.bread, World.load, h]

theorem bread_bwrite (w : World) (b : Nat) (d : Data) (x : Nat) :
    (w.bwrite b d).bread x = if x = b then d else w.bread x := by
  by_cases h : x = b <;> simp [World.bread, World.bwrite, h]

theorem disk_bwrite (w : World) (b : Nat) (d : Data) (x : Nat) :
    (w.bwrite b d).disk x = if x = b then d else w.disk x := by
  by_cases h : x = b <;> simp [World.bwrite, h]

/-- Inv reads the cache only through bread. -/
theorem inv_cache {c : Nat → Option Data} (hi : Inv g w)
    (hc : ({ w with cache := c } : World).bread = w.bread) : Inv g { w with cache := c } := by
  refine ⟨hi.head, hi.lh, hi.pins, ?_, ?_, ?_⟩
  · intro b hb
    rw [hc]
    exact hi.clean b hb
  · exact ⟨hi.ctl.outstanding, hi.ctl.busy, hi.ctl.committing, hi.ctl.cur, hi.ctl.returned⟩
  · have hp := hi.phase
    unfold Phase at hp ⊢
    simp only [hc]
    exact hp

theorem inv_load (hi : Inv g w) (b : Nat) : Inv g (w.load b) :=
  inv_cache hi (bread_load w b)

/-- Recycling an unpinned buffer loses nothing: its contents are on disk. -/
theorem inv_recycle (hi : Inv g w) {b : Nat} (hb : w.pins b = 0) :
    Inv g { w with cache := Function.update w.cache b none } := by
  apply inv_cache hi
  have hn : b ∉ pinned w := by
    intro h
    have := hi.pins b
    simp [h, hb] at this
  funext x
  by_cases hx : x = b
  · subst hx
    simpa [World.bread] using (hi.clean x hn).symm
  · simp [World.bread, hx]

theorem Logged.all (h : Logged g w w.log.lh.length) {i b : Nat} (hi : w.log.lh[i]? = some b) :
    w.disk (g.start + i + 1) = w.full b :=
  h i b (List.getElem?_eq_some_iff.mp hi).1 hi

/-- At every point the disk alone determines a store that recovery will produce. -/
theorem phase_recovers (hi : Inv g w) :
    ∃ k, Recovers w k ∧ ∀ b, Home g b → replay g w.disk b = w.spec k b := by
  have hr := hi.ctl.returned
  have hp := hi.phase
  unfold Phase at hp
  cases hpc : w.pc with
  | idle | panic =>
    simp only [hpc] at hp
    refine ⟨_, ⟨hr, le_refl _⟩, fun b hb => ?_⟩
    rw [replay_of_empty hp.1]
    exact hp.2.1 b hb
  | writeLog | writeHead =>
    simp only [hpc] at hp
    refine ⟨w.hist.called.length - 1, ⟨by omega, by omega⟩, fun b hb => ?_⟩
    rw [replay_of_empty hp.1]
    exact hp.2.2.1 b hb
  | install t =>
    simp only [hpc] at hp
    refine ⟨_, ⟨hr, le_refl _⟩, fun b hb => ?_⟩
    exact replay_eq hp.1 (fun i x hx => hp.2.1.all hx) fun hn =>
      hp.2.2.1 b hb fun h => hn (List.mem_of_mem_drop h)
  | clear =>
    simp only [hpc] at hp
    refine ⟨_, ⟨hr, le_refl _⟩, fun b hb => ?_⟩
    exact replay_eq hp.1 (fun i x hx => hp.2.1.all hx) fun _ => hp.2.2 b hb
  | finish =>
    simp only [hpc] at hp
    refine ⟨_, ⟨hr, le_refl _⟩, fun b hb => ?_⟩
    rw [replay_of_empty hp.1]
    exact hp.2.2 b hb
  | readHead =>
    simpa only [hpc] using hp
  | recover t =>
    simp only [hpc] at hp
    obtain ⟨_, k, hk, hrep, _⟩ := hp
    exact ⟨k, hk, hrep⟩
  | recoverClear =>
    simp only [hpc] at hp
    obtain ⟨_, k, hk, hrep, _⟩ := hp
    exact ⟨k, hk, hrep⟩

theorem inv_crash (hi : Inv g w) : Inv g (crash w) := by
  refine ⟨hi.head, LhOk.of_nil rfl, by simp [crash, pinned], ?_, ?_,
    phase_recovers (w := w) hi⟩
  · intro b _
    simp [World.bread, crash]
  · exact ⟨by simp [crash, LogState.empty], fun _ => ⟨rfl, rfl⟩, rfl, fun h => (by cases h),
      hi.ctl.returned⟩

theorem inv_init (h : Init g w) : Inv g w := by
  obtain ⟨disk, h0, rfl⟩ := h
  have hh := getHead_zero h0
  refine ⟨LhOk.of_nil hh, LhOk.of_nil rfl, by simp [pinned], ?_, ?_, ?_⟩
  · intro b _
    simp [World.bread]
  · exact ⟨by simp [LogState.empty], fun _ => ⟨rfl, rfl⟩, rfl, fun h => (by cases h), le_refl _⟩
  · refine ⟨0, ⟨le_refl _, le_refl _⟩, fun b _ => ?_⟩
    rw [replay_of_empty hh]
    rfl

theorem inv_beginOp (hi : Inv g w) (hpc : w.pc = .idle) (hn : w.hist.nextOp ∉ w.active) :
    Inv g (beginOp w) := by
  refine ⟨hi.head, hi.lh, hi.pins, hi.clean, ?_, hi.phase⟩
  refine ⟨?_, fun h => ?_, hi.ctl.committing, hi.ctl.cur, hi.ctl.returned⟩
  · simp only [beginOp]
    rw [Finset.card_insert_of_notMem hn, hi.ctl.outstanding]
    push_cast
    rfl
  · simp [beginOp, hpc, Pc.quiet] at h

/-- An outstanding operation keeps commit() and recovery away. -/
theorem idle_of_active (hi : Inv g w) {op : Nat} (hup : w.pc.up = true) (ho : op ∈ w.active) :
    w.pc = .idle := by
  have hb := hi.ctl.busy
  cases h : w.pc with
  | idle => rfl
  | panic | readHead | recover | recoverClear => simp [h, Pc.up] at hup
  | _ =>
    have := (hb (by simp [h, Pc.quiet])).1
    simp [this] at ho

theorem idle_of_admits (hi : Inv g w) (hup : w.pc.up = true) (ha : Admits w.log) :
    w.pc = .idle := by
  have hc := hi.ctl.committing.symm.trans ha.1
  cases h : w.pc with
  | idle => rfl
  | panic | readHead | recover | recoverClear => simp [h, Pc.up] at hup
  | _ => simp [h, Pc.commits] at hc

theorem inv_doLogWrite (hi : Inv g w) (hpc : w.pc = .idle) (op : Nat) {b : Nat} (d : Data)
    (hb : Home g b) : Inv g (doLogWrite g w op b d) := by
  have hp := hi.phase
  have hc := hi.ctl.cur (by rw [hpc]; rfl)
  have hclean := hi.clean
  have hpins := hi.pins
  simp only [Phase, pinned, hpc] at hp hclean hpins
  unfold doLogWrite
  cases hl : logWrite g w.log b with
  | error msg =>
    refine ⟨hi.head, hi.lh, hpins, hclean, ?_, hp⟩
    have hcom := hi.ctl.committing
    rw [hpc] at hcom
    exact ⟨hi.ctl.outstanding, fun h => (by cases h), hcom, fun _ => hc, hi.ctl.returned⟩
  | ok lg =>
    simp only [logWrite] at hl
    split_ifs at hl with hbig hout
    cases hl
    have hlen := absorb_length_le b w.log.lh
    refine ⟨hi.head, ⟨absorb_nodup hi.lh.nodup, ?_, by simp only; omega⟩, ?_, ?_, ?_, ?_⟩
    · intro x hx
      rcases mem_absorb.mp hx with rfl | hx
      · exact hb
      · exact hi.lh.home x hx
    · intro x
      have hm : (x ∈ absorb b w.log.lh) = (x = b ∨ x ∈ w.log.lh) := propext mem_absorb
      by_cases hbl : b ∈ w.log.lh
      · have : (x = b ∨ x ∈ w.log.lh) = (x ∈ w.log.lh) :=
          propext ⟨by rintro (rfl | h) <;> assumption, .inr⟩
        simpa [pinned, hpc, hm, this, hbl] using hpins x
      · by_cases hx : x = b
        · subst hx
          simpa [pinned, hpc, hm, hbl] using hpins x
        · simpa [pinned, hpc, hm, hbl, hx] using hpins x
    · intro x hx
      simp only [pinned, hpc, mem_absorb, not_or] at hx
      simpa [World.bread, hx.1] using hclean x hx.2
    · refine ⟨hi.ctl.outstanding, fun h => by simp [hpc, Pc.quiet] at h, hi.ctl.committing, ?_,
        hi.ctl.returned⟩
      intro _ x
      simp only [mem_absorb, hc, List.mem_append, List.mem_singleton]
      constructor
      · rintro (rfl | ⟨y, hy, rfl⟩)
        · exact ⟨⟨op, x, d⟩, .inr rfl, rfl⟩
        · exact ⟨y, .inl hy, rfl⟩
      · rintro ⟨y, hy | rfl, rfl⟩
        · exact .inr ⟨y, hy, rfl⟩
        · exact .inl rfl
    · simp only [hpc]
      refine ⟨hp.1, hp.2.1, fun x hx => ?_⟩
      have hold := hp.2.2 x hx
      rw [List.map_append, applyWrites_append]
      change _ = Function.update (applyWrites w.full (w.hist.cur.map Write.pair)) b d x
      by_cases hxb : x = b
      · subst hxb
        simp [World.bread]
      · simpa [World.bread, hxb] using hold

theorem cur_nil_of_lh_nil (hi : Inv g w) (hpc : w.pc = .idle) (h : w.log.lh = []) :
    w.hist.cur = [] := by
  by_contra hne
  obtain ⟨x, hx⟩ := List.exists_mem_of_ne_nil _ hne
  have := (hi.ctl.cur (by rw [hpc]; rfl) x.blockno).mpr ⟨x, hx, rfl⟩
  simp [h] at this

theorem inv_endOp (hi : Inv g w) (hpc : w.pc = .idle) {op : Nat} (ho : op ∈ w.active) :
    Inv g (endOp w op) := by
  have hp := hi.phase
  have hc := hi.ctl.cur (by rw [hpc]; rfl)
  have hclean := hi.clean
  have hpins := hi.pins
  have hcom : w.log.committing = false := by rw [hi.ctl.committing, hpc]; rfl
  have hret := hi.ctl.returned
  simp only [Phase, pinned, hpc] at hp hclean hpins
  have hcard : w.log.outstanding - 1 = ((w.active.erase op).card : Int) := by
    rw [Finset.card_erase_of_mem ho, hi.ctl.outstanding]
    have := Finset.card_pos.mpr ⟨op, ho⟩
    omega
  have hfull : applyGroups w.hist.base ((w.hist.called ++ [w.hist.cur]).take
      (w.hist.called ++ [w.hist.cur]).length) =
      applyWrites w.full (w.hist.cur.map Write.pair) := by
    rw [List.take_length, applyGroups_snoc, World.full, World.spec, List.take_length]
  unfold endOp
  simp only [hcom, Bool.false_eq_true, if_false]
  split_ifs with h0 hlh
  · have hcur := cur_nil_of_lh_nil hi hpc hlh
    refine ⟨hi.head, hi.lh, by simpa [pinned, hlh] using hpins,
      by simpa [pinned, hlh, World.bread] using hclean, ?_, ?_⟩
    · have he : w.active.erase op = ∅ := Finset.card_eq_zero.mp (by omega)
      exact ⟨hcard, fun _ => ⟨he, rfl⟩, rfl, fun h => (by cases h), le_refl _⟩
    · refine ⟨hp.1, hlh, fun b hb => ?_⟩
      rw [World.full, World.spec, hfull, hcur]
      exact hp.2.1 b hb
  · refine ⟨hi.head, hi.lh, hpins, hclean, ?_, ?_⟩
    · have he : w.active.erase op = ∅ := Finset.card_eq_zero.mp (by omega)
      exact ⟨hcard, fun _ => ⟨he, rfl⟩, rfl, fun h => (by cases h), by simp; omega⟩
    · refine ⟨hp.1, by simp; omega, fun b hb => ?_, fun b hb => ?_, fun i b h => by omega⟩
      · have : w.full b = applyGroups w.hist.base ((w.hist.called ++ [w.hist.cur]).take
            ((w.hist.called ++ [w.hist.cur]).length - 1)) b := by
          simp [World.full, World.spec]
        exact (hp.2.1 b hb).trans this
      · rw [World.full, World.spec, hfull]
        exact hp.2.2 b hb
  · refine ⟨hi.head, hi.lh, by simpa [pinned, hpc] using hpins,
      by simpa [pinned, hpc, World.bread] using hclean, ?_,
      by simp only [hpc]; exact hp⟩
    exact ⟨hcard, fun h => by simp [hpc, Pc.quiet] at h, by rw [hpc]; rfl, fun _ => hc, hret⟩

end Xv6.Log
