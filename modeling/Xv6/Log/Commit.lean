import Xv6.Log.Invariant

namespace Xv6.Log

open Xv6.Framework

variable {g : Geometry} {w w' : World} {t b : Nat}

theorem inv_writeLog (hi : Inv g w) (hpc : w.pc = .writeLog t)
    (hb : w.log.lh[t]? = some b) :
    Inv g { writeLogAt g w t b with pc := .writeLog (t + 1) } := by
  have hp := hi.phase
  have hclean := hi.clean
  have hpins := hi.pins
  simp only [Phase, pinned, hpc] at hp hclean hpins
  obtain ⟨hh, hret, hdisk, hbread, hlog⟩ := hp
  have hbh : Home g b := hi.lh.home b (List.mem_of_getElem? hb)
  have hd (x : Nat) : ({ writeLogAt g w t b with pc := .writeLog (t + 1) } : World).disk x =
      if x = g.start + t + 1 then w.bread b else w.disk x := disk_bwrite _ _ _ _
  have hr (x : Nat) : ({ writeLogAt g w t b with pc := .writeLog (t + 1) } : World).bread x =
      if x = g.start + t + 1 then w.bread b else w.bread x := by
    have := bread_bwrite (w.load b) (g.start + t + 1) (w.bread b) x
    rwa [bread_load] at this
  have hstart : ({ writeLogAt g w t b with pc := .writeLog (t + 1) } : World).disk g.start =
      w.disk g.start := by rw [hd, if_neg (by omega)]
  refine ⟨hstart ▸ hi.head, hi.lh, hpins, fun x hx => ?_, ?_, ?_⟩
  · rw [hd, hr, hclean x hx]
  · exact hi.ctl.step hpc rfl rfl rfl rfl rfl rfl rfl hi.ctl.returned
  · refine ⟨hstart ▸ hh, hret, fun x hx => ?_, fun x hx => ?_, fun i x hit hx => ?_⟩
    · rw [hd, if_neg (hx.ne_log hi.lh hb)]
      exact hdisk x hx
    · rw [hr, if_neg (hx.ne_log hi.lh hb)]
      exact hbread x hx
    · rw [hd]
      by_cases hti : i = t
      · subst hti
        obtain rfl : b = x := Option.some.inj (hb.symm.trans hx)
        rw [if_pos rfl]
        exact hbread b hbh
      · rw [if_neg (by omega)]
        exact hlog i x (by omega) hx

theorem inv_writeHead (hi : Inv g w) (hpc : w.pc = .writeHead) :
    Inv g { writeHead g w with pc := .install 0 } := by
  have hp := hi.phase
  have hclean := hi.clean
  have hpins := hi.pins
  simp only [Phase, pinned, hpc] at hp hclean hpins
  obtain ⟨hh, hret, hdisk, hbread, hlog⟩ := hp
  have hd (x : Nat) : ({ writeHead g w with pc := .install 0 } : World).disk x =
      if x = g.start then putHead (w.bread g.start) w.log.lh else w.disk x := disk_bwrite _ _ _ _
  have hr (x : Nat) : ({ writeHead g w with pc := .install 0 } : World).bread x =
      if x = g.start then putHead (w.bread g.start) w.log.lh else w.bread x :=
    bread_bwrite _ _ _ _
  have hstart : getHead (({ writeHead g w with pc := .install 0 } : World).disk g.start) =
      w.log.lh := by rw [hd, if_pos rfl, getHead_putHead]
  refine ⟨hstart ▸ hi.lh, hi.lh, by exact hpins, fun x hx => ?_, ?_, ?_⟩
  · rw [hd, hr, hclean x hx]
  · exact hi.ctl.step hpc rfl rfl rfl rfl rfl rfl rfl hi.ctl.returned
  · refine ⟨hstart, fun i x _ hx => ?_, fun x hx hn => ?_, fun x hx => ?_⟩
    · rw [hd, if_neg (by omega)]
      exact hlog.all hx
    · rw [hd, if_neg hx.ne_start, ← hclean x hn]
      exact hbread x hx
    · rw [hr, if_neg hx.ne_start]
      exact hbread x hx

/-- What installing log block t at its home b does to the disk. -/
theorem installAt_disk (hi : Inv g w) (hclean : g.start + t + 1 ∉ pinned w)
    (x : Nat) :
    (installAt g w t b).disk x = if x = b then w.disk (g.start + t + 1) else w.disk x := by
  rw [installAt, disk_bwrite, hi.clean _ hclean]
  rfl

theorem installAt_bread (hi : Inv g w) (hclean : g.start + t + 1 ∉ pinned w)
    (x : Nat) :
    (installAt g w t b).bread x = if x = b then w.disk (g.start + t + 1) else w.bread x := by
  rw [installAt, bread_bwrite, hi.clean _ hclean, bread_load]

theorem drop_nodup_cons {lh : List Nat} (hn : lh.Nodup) (hb : lh[t]? = some b) :
    lh.drop t = b :: lh.drop (t + 1) ∧ b ∉ lh.drop (t + 1) := by
  obtain ⟨ht, rfl⟩ := List.getElem?_eq_some_iff.mp hb
  have he := List.drop_eq_getElem_cons ht
  have hd : (lh.drop t).Nodup := hn.sublist (List.drop_sublist t lh)
  rw [he] at hd
  exact ⟨he, (List.nodup_cons.mp hd).1⟩

theorem inv_install (hi : Inv g w) (hpc : w.pc = .install t)
    (hb : w.log.lh[t]? = some b) :
    Inv g { (installAt g w t b).bunpin b with pc := .install (t + 1) } := by
  have hp := hi.phase
  have hclean := hi.clean
  have hpins := hi.pins
  have hlb : g.start + t + 1 ∉ pinned w := by
    simp only [pinned, hpc]
    exact fun h => (hi.lh.home _ (List.mem_of_mem_drop h)).ne_log hi.lh hb rfl
  have hd := installAt_disk hi (b := b) hlb
  have hr := installAt_bread hi (b := b) hlb
  obtain ⟨hdrop, hbn⟩ := drop_nodup_cons hi.lh.nodup hb
  simp only [Phase, pinned, hpc] at hp hclean hpins
  obtain ⟨hh, hlog, hdisk, hbread⟩ := hp
  have hbh : Home g b := hi.lh.home b (List.mem_of_getElem? hb)
  have hlogb : w.disk (g.start + t + 1) = w.full b := hlog.all hb
  have hstart : (installAt g w t b).disk g.start = w.disk g.start := by
    rw [hd, if_neg hbh.ne_start.symm]
  refine ⟨hstart ▸ hi.head, hi.lh, fun x => ?_, fun x hx => ?_, ?_, ?_⟩
  · change Function.update w.pins b (w.pins b - 1) x = if x ∈ w.log.lh.drop (t + 1) then 1 else 0
    have hx := hpins x
    rw [hdrop] at hx
    by_cases hxb : x = b
    · subst hxb
      rw [hx]
      simp [hbn]
    · rw [Function.update_of_ne hxb, hx]
      simp [hxb]
  · change (installAt g w t b).bread x = (installAt g w t b).disk x
    change x ∉ w.log.lh.drop (t + 1) at hx
    rw [hd, hr]
    split_ifs with hxb
    · rfl
    · exact hclean x (by rw [hdrop]; simp [hxb, hx])
  · exact hi.ctl.step hpc rfl rfl rfl rfl rfl rfl rfl hi.ctl.returned
  · refine ⟨hstart ▸ hh, fun i x _ hx => ?_, fun x hx hn => ?_, fun x hx => ?_⟩
    · change (installAt g w t b).disk _ = _
      rw [hd, if_neg (hbh.ne_log hi.lh hx).symm]
      exact hlog.all hx
    · change (installAt g w t b).disk _ = _
      change x ∉ w.log.lh.drop (t + 1) at hn
      rw [hd]
      split_ifs with hxb
      · rw [hlogb, hxb]
        rfl
      · exact hdisk x hx (by rw [hdrop]; simp [hxb, hn])
    · change (installAt g w t b).bread _ = _
      rw [hr]
      split_ifs with hxb
      · rw [hlogb, hxb]
        rfl
      · exact hbread x hx

/-- Clearing the header keeps every home block. -/
theorem clearHead_spec (g : Geometry) (w : World) :
    getHead ((writeHead g (w.setLh [])).disk g.start) = [] ∧
    (∀ x, Home g x → (writeHead g (w.setLh [])).disk x = w.disk x) ∧
    ∀ x, w.bread x = w.disk x →
      (writeHead g (w.setLh [])).bread x = (writeHead g (w.setLh [])).disk x := by
  have hd := disk_bwrite (w.setLh []) g.start (putHead (w.bread g.start) [])
  have hr := bread_bwrite (w.setLh []) g.start (putHead (w.bread g.start) [])
  refine ⟨?_, fun x hx => ?_, fun x hx => ?_⟩
  · exact (congrArg getHead ((hd g.start).trans (if_pos rfl))).trans (getHead_putHead _ _)
  · exact (hd x).trans (if_neg hx.ne_start)
  · refine (hr x).trans (Eq.trans ?_ (hd x).symm)
    split_ifs with h
    · rfl
    · exact hx

theorem inv_clear (hi : Inv g w) (hpc : w.pc = .clear) :
    Inv g { writeHead g (w.setLh []) with
      pc := .finish, hist := { w.hist with returned := w.hist.called.length } } := by
  have hp := hi.phase
  have hclean := hi.clean
  have hpins := hi.pins
  simp only [Phase, pinned, hpc] at hp hclean hpins
  obtain ⟨h1, h2, h3⟩ := clearHead_spec g w
  refine ⟨LhOk.of_nil h1, LhOk.of_nil rfl, hpins, fun x hx => h3 x (hclean x hx), ?_, ?_⟩
  · exact hi.ctl.step hpc rfl rfl rfl rfl rfl rfl rfl (le_refl _)
  · exact ⟨h1, rfl, fun x hx => (h2 x hx).trans (hp.2.2 x hx)⟩

theorem inv_finish (hi : Inv g w) (hpc : w.pc = .finish) :
    Inv g { w with log := { w.log with committing := false }, pc := .idle } := by
  have hp := hi.phase
  have hclean := hi.clean
  have hpins := hi.pins
  have hq : w.pc.quiet = false := by rw [hpc]; rfl
  simp only [Phase, pinned, hpc] at hp hclean hpins
  obtain ⟨hh, hlh, hdisk⟩ := hp
  have hcur := (hi.ctl.busy hq).2
  refine ⟨hi.head, hi.lh, ?_, fun x _ => hclean x (by simp), ?_, ?_⟩
  · simpa [pinned, hlh] using hpins
  · exact ⟨hi.ctl.outstanding, fun h => (by cases h), rfl, fun _ b => by simp [hlh, hcur],
      hi.ctl.returned⟩
  · refine ⟨hh, hdisk, fun x hx => ?_⟩
    change w.bread x = applyWrites w.full (w.hist.cur.map Write.pair) x
    rw [hcur, hclean x (by simp)]
    exact hdisk x hx

theorem inv_readHead (hi : Inv g w) (hpc : w.pc = .readHead) :
    Inv g { (w.load g.start).setLh (getHead (w.bread g.start)) with pc := .recover 0 } := by
  have hp := hi.phase
  have hclean := hi.clean
  have hpins := hi.pins
  simp only [Phase, pinned, hpc] at hp hclean hpins
  have hs : w.bread g.start = w.disk g.start := hclean _ (by simp)
  rw [hs]
  refine ⟨hi.head, hi.head, hpins, fun x _ => ?_, ?_, ?_⟩
  · change (w.load g.start).bread x = w.disk x
    rw [bread_load]
    exact hclean x (by simp)
  · exact hi.ctl.step hpc rfl rfl rfl rfl rfl rfl rfl hi.ctl.returned
  · obtain ⟨k, hk, hrep⟩ := hp
    refine ⟨rfl, k, hk, hrep, fun x hx hn => ?_⟩
    have hrx := hrep x hx
    rw [replay, applyWrites_of_not_mem (by rw [entries_keys]; exact hn)] at hrx
    exact hrx

theorem inv_recover (hi : Inv g w) (hpc : w.pc = .recover t)
    (hb : w.log.lh[t]? = some b) :
    Inv g { installAt g w t b with pc := .recover (t + 1) } := by
  have hlb : g.start + t + 1 ∉ pinned w := by simp [pinned, hpc]
  have hd := installAt_disk hi (b := b) hlb
  have hr := installAt_bread hi (b := b) hlb
  obtain ⟨hdrop, hbn⟩ := drop_nodup_cons hi.lh.nodup hb
  have hp := hi.phase
  have hclean := hi.clean
  have hpins := hi.pins
  simp only [Phase, pinned, hpc] at hp hclean hpins
  obtain ⟨hh, k, hk, hrep, hdisk⟩ := hp
  have hbh : Home g b := hi.lh.home b (List.mem_of_getElem? hb)
  have hlog (i x : Nat) (hx : w.log.lh[i]? = some x) : w.disk (g.start + i + 1) = w.spec k x := by
    rw [← hrep x (hi.lh.home x (List.mem_of_getElem? hx))]
    exact (replay_at hi.head (hh ▸ hx)).symm
  have hstart : (installAt g w t b).disk g.start = w.disk g.start := by
    rw [hd, if_neg hbh.ne_start.symm]
  have hinst (x : Nat) (hx : Home g x) (hn : x ∉ w.log.lh.drop (t + 1)) :
      (installAt g w t b).disk x = w.spec k x := by
    rw [hd]
    split_ifs with hxb
    · rw [hlog t b hb, hxb]
    · exact hdisk x hx (by rw [hdrop]; simp [hxb, hn])
  refine ⟨hstart ▸ hi.head, hi.lh, hpins, fun x _ => ?_, ?_, ?_⟩
  · change (installAt g w t b).bread x = (installAt g w t b).disk x
    rw [hd, hr, hclean x (by simp)]
  · exact hi.ctl.step hpc rfl rfl rfl rfl rfl rfl rfl hi.ctl.returned
  · refine ⟨hstart ▸ hh, k, hk, fun x hx => ?_, hinst⟩
    refine replay_eq (hstart ▸ hh) (fun i y hy => ?_) fun hn =>
      hinst x hx fun h => hn (List.mem_of_mem_drop h)
    rw [hd, if_neg (hbh.ne_log hi.lh hy).symm]
    exact hlog i y hy

theorem inv_recoverClear (hi : Inv g w) (hpc : w.pc = .recoverClear) :
    Inv g { writeHead g (w.setLh []) with
      pc := .idle
      hist := { w.hist with
        base := (writeHead g (w.setLh [])).disk, called := [], returned := 0, cur := [] } } := by
  have hclean := hi.clean
  have hpins := hi.pins
  have hcom := hi.ctl.committing
  rw [hpc] at hcom
  simp only [pinned, hpc] at hclean hpins
  obtain ⟨h1, h2, h3⟩ := clearHead_spec g w
  refine ⟨LhOk.of_nil h1, LhOk.of_nil rfl, hpins,
    fun x _ => h3 x (hclean x (by simp)), ?_, h1, fun _ _ => rfl, fun x _ => ?_⟩
  · exact ⟨hi.ctl.outstanding, fun h => (by cases h), hcom,
      fun _ b => by simp [writeHead, World.setLh, World.bwrite], le_refl _⟩
  · exact h3 x (hclean x (by simp))

theorem inv_setPc (hi : Inv g w) {pc : Pc} (hq : w.pc.quiet = false) (hq' : pc.quiet = false)
    (hc : pc.commits = w.pc.commits) (hpin : pinned { w with pc := pc } = pinned w)
    (hph : Phase g { w with pc := pc }) : Inv g { w with pc := pc } :=
  ⟨hi.head, hi.lh, by rw [hpin]; exact hi.pins, by rw [hpin]; exact hi.clean,
    hi.ctl.step rfl hq hq' rfl rfl rfl hc rfl hi.ctl.returned, hph⟩

theorem inv_proceed (hi : Inv g w) (h : proceed g w = some w') : Inv g w' := by
  have hp := hi.phase
  unfold Phase at hp
  unfold proceed at h
  cases hpc : w.pc with
  | idle | panic => simp [hpc] at h
  | writeLog t =>
    simp only [hpc] at h hp
    cases hb : w.log.lh[t]? with
    | some b =>
      rw [hb] at h
      cases h
      exact inv_writeLog hi hpc hb
    | none =>
      rw [hb] at h
      cases h
      have hlen := List.getElem?_eq_none_iff.mp hb
      refine inv_setPc hi (by rw [hpc]; rfl) rfl (by rw [hpc]; rfl) (by simp [pinned, hpc]) ?_
      exact ⟨hp.1, hp.2.1, hp.2.2.1, hp.2.2.2.1,
        fun i b hlt => hp.2.2.2.2 i b (lt_of_lt_of_le hlt hlen)⟩
  | writeHead =>
    simp only [hpc] at h
    cases h
    exact inv_writeHead hi hpc
  | install t =>
    simp only [hpc] at h hp
    cases hb : w.log.lh[t]? with
    | some b =>
      rw [hb] at h
      cases h
      exact inv_install hi hpc hb
    | none =>
      rw [hb] at h
      cases h
      have hdrop : w.log.lh.drop t = [] :=
        List.drop_eq_nil_of_le (List.getElem?_eq_none_iff.mp hb)
      refine inv_setPc hi (by rw [hpc]; rfl) rfl (by rw [hpc]; rfl)
        (by simp [pinned, hpc, hdrop]) ?_
      exact ⟨hp.1, hp.2.1, fun b hb => hp.2.2.1 b hb (by simp [hdrop])⟩
  | clear =>
    simp only [hpc] at h
    cases h
    exact inv_clear hi hpc
  | finish =>
    simp only [hpc] at h
    cases h
    exact inv_finish hi hpc
  | readHead =>
    simp only [hpc] at h
    cases h
    exact inv_readHead hi hpc
  | recover t =>
    simp only [hpc] at h hp
    cases hb : w.log.lh[t]? with
    | some b =>
      rw [hb] at h
      cases h
      exact inv_recover hi hpc hb
    | none =>
      rw [hb] at h
      cases h
      have hdrop : w.log.lh.drop t = [] :=
        List.drop_eq_nil_of_le (List.getElem?_eq_none_iff.mp hb)
      refine inv_setPc hi (by rw [hpc]; rfl) rfl (by rw [hpc]; rfl) (by simp [pinned, hpc]) ?_
      obtain ⟨hh, k, hk, hrep, hdisk⟩ := hp
      exact ⟨hh, k, hk, hrep, fun b hb => hdisk b hb (by simp [hdrop])⟩
  | recoverClear =>
    simp only [hpc] at h
    cases h
    exact inv_recoverClear hi hpc

end Xv6.Log
