import Xv6.Log.Group
import Xv6.Framework.Returns

namespace Xv6.Log.Group

open Xv6.Framework Xv6.Framework.Monitor

theorem length_le_absorb (b : Nat) (lh : List Nat) : lh.length ≤ (absorb b lh).length := by
  induction lh with
  | nil => exact Nat.zero_le _
  | cons x xs ih =>
    rw [absorb]
    split
    · exact Nat.le_refl _
    · exact Nat.succ_le_succ ih

theorem logWrite_ok {g : Geometry} {lg lg' : LogState} {b : Nat} (h : logWrite g lg b = .ok lg') :
    1 ≤ lg.outstanding ∧ lg' = { lg with lh := absorb b lg.lh } := by
  rw [logWrite] at h
  split at h
  · cases h
  split at h
  · cases h
  · rename_i hout
    exact ⟨by omega, (Except.ok.inj h).symm⟩

/-- What a step of a process means for the protocol. -/
inductive Turn (d : LogState) (l : Local) : LogState → Local → Prop
  | keep {m : Local} : m.inOp = l.inOp → m.commits = l.commits →
      (m.cleared = true → l.cleared = true) → Turn d l d m
  | enter : Admits d → l.inOp = false → l.commits = false →
      Turn d l { d with outstanding := d.outstanding + 1 } .beginRelease
  | write {b : Nat} {op : Bool} : 1 ≤ d.outstanding → l.inOp = op → l.commits = false →
      Turn d l { d with lh := absorb b d.lh } (.writeRelease op)
  | leave : l.inOp = true → l.commits = false → d.committing = false → d.outstanding - 1 ≠ 0 →
      Turn d l { d with outstanding := d.outstanding - 1 } .endWake
  | last : l.inOp = true → l.commits = false → d.committing = false → d.outstanding - 1 = 0 →
      Turn d l { d with outstanding := d.outstanding - 1, committing := true } .commitRelease
  | stuck {d' : LogState} {m : Local} : l.inOp = true → d.committing = true → Turn d l d' m
  | clear : l.commits = true → l.inOp = false → Turn d l { d with lh := [] } .doneAcquire
  | done : l.cleared = true → l.commits = true → l.inOp = false →
      Turn d l { d with committing := false } .doneWake

theorem act_turn {g : Geometry} {d : LogState} {l : Local} {f : LogState → LogState × Local}
    (hc : code g l = .act f) : Turn d l (f d).1 (f d).2 := by
  cases l with
  | beginLoop =>
    cases hc
    show Turn d _ (ite _ _ _ : LogState × Local).1 (ite _ _ _ : LogState × Local).2
    split
    · rename_i ha
      exact .enter ha rfl rfl
    · exact .keep rfl rfl nofun
  | writeBody b op =>
    cases hc
    cases hw : logWrite g d b with
    | ok d' =>
      obtain ⟨hout, rfl⟩ := logWrite_ok hw
      simp only [hw]
      exact .write hout rfl rfl
    | error msg =>
      simp only [hw]
      exact .keep rfl rfl nofun
  | endBody =>
    cases hc
    show Turn d _ (ite _ _ _ : LogState × Local).1 (ite _ _ _ : LogState × Local).2
    split
    · rename_i hcom
      exact .stuck rfl hcom
    rename_i hcom
    split
    · rename_i hz
      exact .last rfl rfl (by simpa using hcom) hz
    · rename_i hz
      exact .leave rfl rfl (by simpa using hcom) hz
  | commitTest =>
    cases hc
    show Turn d _ d (if d.lh = [] then _ else _)
    split
    · rename_i hl
      have h : d = { d with lh := [] } := by rw [← hl]
      rw [h]
      exact .clear rfl rfl
    · exact .keep rfl rfl nofun
  | commitWrite =>
    cases hc
    exact .keep rfl rfl nofun
  | commitClear =>
    cases hc
    exact .clear rfl rfl
  | doneBody =>
    cases hc
    exact .done rfl rfl rfl
  | _ => cases hc

theorem goes_turn {g : Geometry} {d d' : LogState} {l m : Local}
    (hg : Goes (code g) enter d l d' m) : Turn d l d' m := by
  cases hg with
  | act hc => exact act_turn hc
  | acquire hc =>
    cases l <;> cases hc
    all_goals exact .keep rfl rfl fun h => by first | rfl | cases h
  | release hc =>
    cases l with
    | writeRelease op =>
      cases hc
      cases op <;> exact .keep rfl rfl nofun
    | _ => cases hc <;> exact .keep rfl rfl nofun
  | killed b hc => cases l <;> cases hc
  | wakeup hc =>
    cases l <;> cases hc
    all_goals exact .keep rfl rfl nofun
  | sleep hc =>
    cases l <;> cases hc
    all_goals exact .keep rfl rfl nofun
  | @call a m hc he =>
    cases l with
    | outside => cases a <;> cases he <;> exact .keep rfl rfl nofun
    | inside => cases a <;> cases he <;> exact .keep rfl rfl nofun
    | _ => cases hc

def running (loc : Fin NPROC → Local) : Nat := (Finset.univ.filter fun p => (loc p).inOp = true).card

theorem running_update (loc : Fin NPROC → Local) (p : Fin NPROC) (m : Local) :
    running (update loc p m) + (if (loc p).inOp then 1 else 0) =
      running loc + (if m.inOp then 1 else 0) := by
  rw [running, running, Finset.card_filter, Finset.card_filter]
  exact sum_update_add loc (fun _ l => if l.inOp = true then 1 else 0) p m

theorem running_pos {loc : Fin NPROC → Local} {p : Fin NPROC} (h : (loc p).inOp = true) :
    0 < running loc :=
  Finset.card_pos.mpr ⟨p, by simpa using h⟩

/-- The protocol, in terms of struct log and of where the processes are. -/
structure Protocol (d : LogState) (loc : Fin NPROC → Local) : Prop where
  count : d.outstanding = running loc
  commits : ∀ p, (loc p).commits = true → d.committing = true
  committer : d.committing = true → ∃ p, (loc p).commits = true
  unique : ∀ p q, (loc p).commits = true → (loc q).commits = true → p = q
  idle : d.committing = true → d.outstanding = 0
  empty : d.outstanding = 0 → d.committing = false → d.lh = []
  cleared : ∀ p, (loc p).cleared = true → d.lh = []
  nodup : d.lh.Nodup

namespace Protocol

variable {d d' : LogState} {loc : Fin NPROC → Local} {p : Fin NPROC} {m : Local}

theorem init : Protocol .empty fun _ => .outside := by
  refine ⟨?_, nofun, nofun, nofun, nofun, fun _ _ => rfl, nofun, List.nodup_nil⟩
  simp [LogState.empty, running, Local.inOp]

theorem forall_update {P : Fin NPROC → Local → Prop} (hm : P p m) (h : ∀ q, q ≠ p → P q (loc q))
    (q : Fin NPROC) : P q (update loc p m q) := by
  by_cases hq : q = p
  · subst hq
    rw [update_self]
    exact hm
  · rw [update_of_ne hq]
    exact h q hq

/-- A process that does not become the committer, and empties no header. -/
theorem edit (hp : Protocol d loc) (hin : d'.outstanding + (if (loc p).inOp then 1 else 0) =
      d.outstanding + (if m.inOp then 1 else 0))
    (hcom : d'.committing = d.committing) (hmc : m.commits = (loc p).commits)
    (hidle : d.committing = true → d'.outstanding = 0)
    (hempty : d'.outstanding = 0 → d.committing = false → d'.lh = [])
    (hclear : m.cleared = true → d'.lh = [])
    (hother : ∀ q, (loc q).cleared = true → d'.lh = []) (hnodup : d'.lh.Nodup) :
    Protocol d' (update loc p m) := by
  have hback : ∀ q, (update loc p m q).commits = (loc q).commits :=
    forall_update (P := fun q l => l.commits = (loc q).commits) hmc fun _ _ => rfl
  have hrun := running_update loc p m
  have hcount := hp.count
  refine ⟨?_, ?_, ?_, ?_, ?_, ?_, ?_, hnodup⟩
  · have hcast : ∀ l : Local, ((if l.inOp then 1 else 0 : Nat) : Int) = if l.inOp then 1 else 0 :=
      fun l => by split <;> rfl
    have h1 := hcast m
    have h2 := hcast (loc p)
    omega
  · intro q hq
    rw [hback] at hq
    rw [hcom]
    exact hp.commits q hq
  · intro h
    rw [hcom] at h
    obtain ⟨q, hq⟩ := hp.committer h
    exact ⟨q, by rw [hback]; exact hq⟩
  · intro q q' hq hq'
    rw [hback] at hq hq'
    exact hp.unique q q' hq hq'
  · rw [hcom]
    exact hidle
  · rw [hcom]
    exact hempty
  · exact forall_update (P := fun _ l => l.cleared = true → d'.lh = []) hclear fun q _ => hother q

theorem turn (hp : Protocol d loc) (ht : Turn d (loc p) d' m) :
    Protocol d' (update loc p m) := by
  have hcount := hp.count
  cases ht with
  | keep hin hcom hcl =>
    exact hp.edit (by rw [hin]) rfl hcom hp.idle hp.empty (fun h => hp.cleared p (hcl h)) hp.cleared
      hp.nodup
  | enter ha hin hcom =>
    refine hp.edit ?_ rfl hcom.symm ?_ ?_ nofun hp.cleared hp.nodup
    · rw [hin]
      exact Int.add_zero _
    · intro h
      rw [ha.1] at h
      cases h
    · intro h
      have h' : d.outstanding + 1 = 0 := h
      omega
  | @write b op hout hin hcom =>
    have hnot : d.committing ≠ true := fun h => by
      have := hp.idle h
      omega
    refine hp.edit ?_ rfl hcom.symm hp.idle ?_ nofun ?_ (absorb_nodup hp.nodup)
    · rw [hin]
      rfl
    · intro h
      have h' : d.outstanding = 0 := h
      omega
    · intro q hq
      have hc : (loc q).commits = true := by
        cases hl : loc q <;> simp_all [Local.cleared, Local.commits]
      exact absurd (hp.commits q hc) hnot
  | leave hin hcom hnc hne =>
    refine hp.edit ?_ rfl hcom.symm ?_ (fun h => absurd h hne) nofun hp.cleared hp.nodup
    · rw [hin]
      show d.outstanding - 1 + 1 = d.outstanding + 0
      omega
    · intro h
      rw [hnc] at h
      cases h
  | last hin hcom hnc hz =>
    -- nobody commits yet
    have hnone : ∀ q, (loc q).commits ≠ true := fun q hq => by
      rw [hp.commits q hq] at hnc
      cases hnc
    have hrun := running_update loc p .commitRelease
    rw [hin] at hrun
    replace hrun : running _ + 1 = running loc + 0 := hrun
    have honly : ∀ q, (update loc p .commitRelease q).commits = true → q = p := by
      intro q hq
      by_contra hne
      rw [update_of_ne hne] at hq
      exact hnone q hq
    refine ⟨?_, fun _ _ => rfl, fun _ => ⟨p, by rw [update_self]; rfl⟩, ?_, fun _ => hz,
      nofun, ?_, hp.nodup⟩
    · show d.outstanding - 1 = _
      omega
    · intro q q' hq hq'
      rw [honly q hq, honly q' hq']
    · exact forall_update (P := fun _ l => l.cleared = true → d.lh = []) nofun
        fun q _ => hp.cleared q
  | stuck hin hcom =>
    have h1 := hp.idle hcom
    have h2 := running_pos hin
    omega
  | clear hcom hin =>
    refine hp.edit ?_ rfl hcom.symm hp.idle (fun _ _ => rfl) (fun _ => rfl) (fun _ _ => rfl)
      List.nodup_nil
    rw [hin]
    rfl
  | done hcl hcom hin =>
    have hrun := running_update loc p .doneWake
    rw [hin] at hrun
    replace hrun : running _ + 0 = running loc + 0 := hrun
    have hnone : ∀ q, (update loc p .doneWake q).commits ≠ true := by
      intro q hq
      by_cases hqp : q = p
      · subst hqp
        rw [update_self] at hq
        cases hq
      · rw [update_of_ne hqp] at hq
        exact hqp (hp.unique q p hq hcom)
    refine ⟨?_, fun q hq => absurd hq (hnone q), nofun, fun q _ hq => absurd hq (hnone q), nofun,
      fun _ _ => hp.cleared p hcl, ?_, hp.nodup⟩
    · show d.outstanding = _
      omega
    · exact forall_update (P := fun _ l => l.cleared = true → d.lh = []) nofun
        fun q _ => hp.cleared q

end Protocol

/-- Why a process sleeps in begin_op. -/
def reason (_ : Unit) (lg : LogState) : Prop := ¬Admits lg

def Knows : Local → LogState → Prop
  | .beginSleep, lg => ¬Admits lg
  | _, _ => True

/-- The wakeups that a process has still to do before it gives up log.lock. -/
def owes : Local → Unit → Prop
  | .endWake, _ => True
  | .doneWake, _ => True
  | _, _ => False

theorem not_admits_of_committing {lg : LogState} (h : lg.committing = true) : ¬Admits lg := by
  intro ha
  rw [ha.1] at h
  cases h

theorem learns (g : Geometry) : Learns (code g) enter holds Knows where
  free l lg h := by cases l <;> trivial
  goes d l d' m hk hg := by
    cases hg with
    | act hc =>
      cases l with
      | beginLoop =>
        cases hc
        show Knows (ite _ _ _ : LogState × Local).2 (ite _ _ _ : LogState × Local).1
        split
        · trivial
        · rename_i h
          exact h
      | writeBody b op =>
        cases hc
        cases hw : logWrite g d b with
        | ok d' => simp only [hw, Knows]
        | error msg => simp only [hw, Knows]
      | endBody =>
        cases hc
        show Knows (ite _ _ _ : LogState × Local).2 (ite _ _ _ : LogState × Local).1
        split
        · trivial
        · split <;> trivial
      | commitTest =>
        cases hc
        show Knows (if _ then _ else _) d
        split <;> trivial
      | _ => cases hc <;> trivial
    | acquire hc => cases l <;> cases hc <;> trivial
    | release hc =>
      cases l with
      | writeRelease op =>
        cases hc
        cases op <;> trivial
      | _ => cases hc <;> trivial
    | killed b hc => cases l <;> cases hc
    | wakeup hc => cases l <;> cases hc <;> trivial
    | sleep hc =>
      cases l <;> cases hc
      trivial
    | @call a m hc he =>
      cases l with
      | outside => cases a <;> cases he <;> trivial
      | inside => cases a <;> cases he <;> trivial
      | _ => cases hc
  back d l c m hk hc d' := by
    cases l <;> cases hc
    trivial

structure Grouped (s : State) : Prop where
  held : Held holds s
  protocol : Protocol s.data fun p => (s.status p).at
  known : Known Knows s
  handoff : Handoff reason owes s

namespace Grouped

variable {g : Geometry} {s t : State} {a : Label} {p : Fin NPROC} {l : Local}

/-- commit acts on the header without the lock, but only while log.committing is set. -/
theorem acts (hg : Grouped s) {f : LogState → LogState × Local} (hs : s.status p = .run l)
    (hc : code g l = .act f) : holds l = true ∨ ∀ m, Knows m s.data → Knows m (f s.data).1 := by
  cases l with
  | commitTest =>
    cases hc
    exact .inr fun _ h => h
  | commitWrite =>
    cases hc
    exact .inr fun _ h => h
  | commitClear =>
    cases hc
    have hcom : s.data.committing = true := hg.protocol.commits p (by rw [hs]; rfl)
    refine .inr fun m _ => ?_
    cases m with
    | beginSleep => exact not_admits_of_committing hcom
    | _ => trivial
  | _ => cases hc <;> exact .inl rfl

theorem duty (hg : Grouped s) : Duty (code g) reason owes s p := by
  intro l hs
  have hlock : holds l = true → s.lock = some p := by
    intro h
    rw [hg.held.lock p, hs]
    exact h
  cases l with
  | beginLoop =>
    show (∀ c, _ → owes (ite _ _ _ : LogState × Local).2 c) ∧ ∀ c, _ →
      reason c (ite _ _ _ : LogState × Local).1 ∨ _ ∧ owes (ite _ _ _ : LogState × Local).2 c
    split
    · rename_i ha
      exact ⟨fun c ho => ho.elim, fun c hr => absurd ha hr⟩
    · exact ⟨fun c ho => ho.elim, fun c hr => .inl hr⟩
  | beginSleep =>
    have hk := hg.known p
    rw [hs] at hk
    exact ⟨hk, fun c ho => ho⟩
  | writeBody b op =>
    refine ⟨fun c ho => ho.elim, fun c hr => .inl ?_⟩
    cases hw : logWrite g s.data b with
    | error msg =>
      simp only [hw]
      exact hr
    | ok lg =>
      obtain ⟨-, rfl⟩ := logWrite_ok hw
      simp only [hw]
      -- a longer header leaves no more room than before
      rintro ⟨hcom, hroom⟩
      have hlen := length_le_absorb b s.data.lh
      exact hr ⟨hcom, by simp only at hroom; omega⟩
  | endBody =>
    show (∀ c, _ → owes (ite _ _ _ : LogState × Local).2 c) ∧ ∀ c, _ →
      reason c (ite _ _ _ : LogState × Local).1 ∨ _ ∧ owes (ite _ _ _ : LogState × Local).2 c
    split
    · rename_i hcom
      exact ⟨fun c ho => ho.elim, fun c _ => .inl (not_admits_of_committing hcom)⟩
    · split
      · exact ⟨fun c ho => ho.elim, fun c _ => .inl (not_admits_of_committing rfl)⟩
      · exact ⟨fun c ho => ho.elim, fun c _ => .inr ⟨hlock rfl, trivial⟩⟩
  | commitTest => exact ⟨fun c ho => ho.elim, fun c hr => .inl hr⟩
  | commitWrite => exact ⟨fun c ho => ho.elim, fun c hr => .inl hr⟩
  | commitClear =>
    have hcom : s.data.committing = true := hg.protocol.commits p (by rw [hs]; rfl)
    exact ⟨fun c ho => ho.elim, fun c _ => .inl (not_admits_of_committing hcom)⟩
  | doneBody => exact ⟨fun c ho => ho.elim, fun c _ => .inr ⟨hlock rfl, trivial⟩⟩
  | endWake => exact fun c _ => .inl rfl
  | doneWake => exact fun c _ => .inl rfl
  | beginRelease => exact fun c ho => ho
  | writeRelease op => exact fun c ho => ho
  | endRelease => exact fun c ho => ho
  | commitRelease => exact fun c ho => ho
  | doneRelease => exact fun c ho => ho
  | _ => trivial

theorem init : Grouped init :=
  ⟨held_init, Protocol.init, fun _ => trivial, fun _ _ hw => hw.elim⟩

theorem next (hg : Grouped s) (h : next g s a = some t) : Grouped t := by
  have hstep := step_of_next h
  refine ⟨hg.held.step (paired g) hstep, ?_, hg.known.step (learns g) hg.held
    (fun _ _ _ hs hc => hg.acts hs hc) hstep,
    hg.handoff.step hg.held (paired g) (fun _ _ => hg.duty) hstep⟩
  rcases hstep.goes with ⟨hd, hat⟩ | ⟨p, l, hs, hgo, hne, -⟩
  · simp only [hd, hat]
    exact hg.protocol
  · have hloc : (fun q => (t.status q).at) =
        update (fun q => (s.status q).at) p (t.status p).at := by
      funext q
      by_cases hq : q = p
      · subst hq
        rw [update_self]
      · rw [update_of_ne hq, hne q hq]
    rw [hloc]
    refine hg.protocol.turn ?_
    rw [hs]
    exact goes_turn hgo

/-- While log.committing is set nobody gets into an operation, and only who commits changes the
header. -/
theorem closed (hg : Grouped s) (hcom : s.data.committing = true) (h : Group.next g s a = some t) :
    (∀ q, (t.status q).at.inOp = true → (s.status q).at.inOp = true) ∧
    (t.data.lh ≠ s.data.lh → ∃ p, a = .step p ∧ (s.status p).at.commits = true) := by
  rcases (step_of_next h).goes with ⟨hd, hat⟩ | ⟨p, l, hs, hgo, hne, hdata⟩
  · exact ⟨fun q hq => hat q ▸ hq, fun hl => absurd (by rw [hd]) hl⟩
  have hidle := hg.protocol.idle hcom
  have hin : (t.status p).at.inOp = true → l.inOp = true := by
    intro hm
    generalize hd : t.data = d at hgo
    generalize (t.status p).at = m at hgo hm
    cases goes_turn hgo with
    | keep h _ _ => rw [← h, hm]
    | enter ha _ _ => exact absurd ha (not_admits_of_committing hcom)
    | write hout _ _ => omega
    | leave h _ _ _ => exact h
    | last h _ _ _ => exact h
    | stuck h _ => exact h
    | clear _ _ => cases hm
    | done _ _ _ => cases hm
  refine ⟨fun q hq => ?_, fun hl => ?_⟩
  · by_cases hqp : q = p
    · subst hqp
      rw [hs]
      exact hin hq
    · rwa [hne q hqp] at hq
  · refine ⟨p, hdata fun hd => hl (by rw [hd]), ?_⟩
    rw [hs]
    show l.commits = true
    have hout : l.inOp ≠ true := by
      intro hop
      have h1 : 0 < running fun q => (s.status q).at :=
        running_pos (p := p) (by simp only [hs]; exact hop)
      have h2 := hg.protocol.count
      omega
    generalize hd : t.data = d at hgo
    generalize (t.status p).at = m at hgo
    cases goes_turn hgo with
    | keep _ _ _ => exact absurd (by rw [hd]) hl
    | enter ha _ _ => exact absurd ha (not_admits_of_committing hcom)
    | write hout _ _ => omega
    | leave h _ _ _ => exact absurd h hout
    | last h _ _ _ => exact absurd h hout
    | stuck h _ => exact absurd h hout
    | clear h _ => exact h
    | done _ h _ => exact h

end Grouped

/-- The group-commit protocol of log.c in every run. -/
theorem group_commit {g : Geometry} {tr : List (Event State Label)} {s : State}
    (hp : Path (next g) init tr s) :
    s.data.outstanding = (Finset.univ.filter fun p => (s.status p).at.inOp = true).card ∧
    (∀ e ∈ tr, e.pre.data.committing = true →
      (∀ q, (e.post.status q).at.inOp = true → (e.pre.status q).at.inOp = true) ∧
      (e.post.data.lh ≠ e.pre.data.lh →
        ∃ p, e.label = .step p ∧ (e.pre.status p).at.commits = true)) ∧
    (s.data.committing = true → ∃ p, ∀ q, (s.status q).at.commits = true ↔ q = p) ∧
    (s.data.outstanding = 0 → s.data.committing = false → s.data.lh = []) ∧
    s.data.lh.Nodup ∧
    (s.lock = none → ∀ q l, s.status q = .asleep () l → s.data.committing = true ∨
      (LOGSIZE : Int) < s.data.lh.length + (s.data.outstanding + 1) * MAXOPBLOCKS) := by
  have hstep : ∀ s a t, Grouped s → next g s a = some t → True → Grouped t :=
    fun _ _ _ hg h _ => hg.next h
  have hg : Grouped s := hp.invariant hstep .init fun _ _ => trivial
  refine ⟨hg.protocol.count, fun e he hcom => ?_, fun hcom => ?_, hg.protocol.empty,
    hg.protocol.nodup, fun hlock q l hs => ?_⟩
  · have hpre := (hp.invariant_mem hstep .init (fun _ _ => trivial) he).1
    exact hpre.closed hcom (hp.step_of_mem he)
  · obtain ⟨p, hc⟩ := hg.protocol.committer hcom
    refine ⟨p, fun q => ⟨fun hq => hg.protocol.unique q p hq hc, ?_⟩⟩
    rintro rfl
    exact hc
  · have hr : ¬Admits s.data := hg.handoff.asleep hlock hs
    cases hcom : s.data.committing with
    | true => exact .inl rfl
    | false => exact .inr (Int.not_le.mp fun hle => hr ⟨hcom, hle⟩)

/-- One operation with one block is at its commit, and a second process has come to begin_op. -/
def secondWaits : List Label :=
  [.call 0 .beginOp, .step 0, .step 0, .step 0, .call 0 (.logWrite 46), .step 0, .step 0, .step 0,
    .call 0 .endOp, .step 0, .step 0, .step 0, .call 1 .beginOp, .step 1, .step 1, .step 1, .step 1,
    .step 1]

theorem group_commit_secondWaits :
    let s := final (next mkfsGeometry) init secondWaits
    s.status 1 = .asleep () .beginLoop ∧ s.data.lh = [46] ∧ (s.data.committing = true ∨
      (LOGSIZE : Int) < s.data.lh.length + (s.data.outstanding + 1) * MAXOPBLOCKS) := by
  intro s
  have hp : Path (next mkfsGeometry) init _ s := path_final (by decide +kernel)
  have hs : s.status 1 = .asleep () .beginLoop := rfl
  exact ⟨hs, by decide +kernel, (group_commit hp).2.2.2.2.2 rfl 1 _ hs⟩

end Xv6.Log.Group
