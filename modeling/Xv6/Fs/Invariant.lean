import Xv6.Fs.FileSteps
import Xv6.Fs.Typed

namespace Xv6.Fs

open Xv6.Framework

variable {c : Prop} {w w' : World} {H : Holds} {p : ProcId} {ip : Ip} {hs r : Multiset Hold}
  {h h' : Hold} {inum : Nat}

def pointersOf (hs : Multiset Hold) : Multiset Ip := hs.filterMap Hold.on

theorem pointersOf_cons {e : Ip} (hon : h.on = some e) : pointersOf (h ::ₘ r) = e ::ₘ pointersOf r :=
  Multiset.filterMap_cons_some _ _ _ hon

theorem pointersOf_cons_none (hon : h.on = none) : pointersOf (h ::ₘ r) = pointersOf r :=
  Multiset.filterMap_cons_none _ _ hon

theorem pointersOf_swap (hp : hs = h' ::ₘ r) (hon : h.on = h'.on) :
    pointersOf (h ::ₘ r) = pointersOf hs := by
  rw [hp]
  cases he : h'.on with
  | none => rw [pointersOf_cons_none he, pointersOf_cons_none (hon.trans he)]
  | some ip => rw [pointersOf_cons he, pointersOf_cons (hon.trans he)]

theorem pointersOf_erase (hp : hs = h ::ₘ r) (hon : h.on = some ip) :
    pointersOf r = (pointersOf hs).erase ip := by
  rw [hp, pointersOf_cons hon, Multiset.erase_cons_head]

/-- The stops that the discipline does not exclude. -/
def Lawful (e : Stop) : Prop := ∀ m, e = .panic m → m.misuse = false

namespace World

variable {e : Stop}

theorem idupCwd_error (hs : w.idupCwd p = .error e) : e = .panic .fault := by
  rw [idupCwd] at hs
  split at hs
  · exact (Except.error.inj hs).symm
  · cases hs

theorem filedup_error {f : Fin NFILE} (hs : w.filedup f = .error e) : e = .panic .filedup := by
  rw [filedup] at hs
  split at hs
  · exact (Except.error.inj hs).symm
  · cases hs

theorem dupFiles_error {ofile : Fin NOFILE → Option (Fin NFILE)} {fds : List (Fin NOFILE)}
    (hs : dupFiles ofile fds w = .error e) : e = .panic .filedup := by
  induction fds generalizing w with
  | nil => cases hs
  | cons fd fds ih =>
    rw [dupFiles] at hs
    split at hs
    · exact ih hs
    split at hs
    · exact ih hs
    · rename_i hdup
      cases hs
      exact filedup_error hdup

theorem fork_error (hs : w.fork p = .error e) : e = .panic .filedup ∨ e = .panic .fault := by
  rw [fork] at hs
  split at hs
  · cases hs
  split at hs
  · rename_i hdup
    cases hs
    exact .inl (dupFiles_error hdup)
  split at hs
  · rename_i hidup
    cases hs
    exact .inr (idupCwd_error hidup)
  · cases hs

theorem dup_error {fd : Fin NOFILE} (hs : w.dup p fd = .error e) : e = .panic .filedup := by
  rw [dup] at hs
  split at hs
  · cases hs
  split at hs
  · cases hs
  split at hs
  · cases hs
  · rename_i hdup
    cases hs
    exact filedup_error hdup

end World

/-- How a section may stop. -/
def Op.stops : Op → List Stop
  | .iget _ _ => [.panic .iget]
  | .idupCwd => [.panic .fault]
  | .acquiresleep _ => [.panic .ilock, .blocked]
  | .load _ => [.panic .ilockNoType]
  | .iunlock _ => [.panic .iunlock]
  | .iput _ => [.panic .sched]
  | .bfree _ _ _ => [.panic .bfree]
  | .takeCwd => [.panic .fault]
  | .fileInit _ _ => [.panic .fault]
  | .fileclose _ => [.panic .fileclose]
  | .dup _ => [.panic .filedup]
  | .fork => [.panic .filedup, .panic .fault]
  | .panic m => [.panic m]
  | _ => []

theorem Op.exec_stops {o : Op} {e : Stop} (hs : o.exec p w = .error e) : e ∈ o.stops := by
  cases o with
  | iget inum ialloc =>
    simp only [Op.exec, World.iget] at hs
    split at hs
    · cases hs
    split at hs
    · exact List.mem_singleton.mpr (Except.error.inj hs).symm
    · cases hs
  | idupCwd => exact List.mem_singleton.mpr (World.idupCwd_error hs)
  | acquiresleep ip =>
    simp only [Op.exec, World.acquiresleep] at hs
    split at hs
    · cases hs
      exact List.mem_cons_self
    split at hs
    · cases hs
      exact List.mem_cons_of_mem _ List.mem_cons_self
    · cases hs
  | load ip =>
    simp only [Op.exec, World.load] at hs
    split at hs
    · cases hs
    split at hs
    · exact List.mem_singleton.mpr (Except.error.inj hs).symm
    · cases hs
  | iunlock ip =>
    simp only [Op.exec, World.iunlock] at hs
    split at hs
    · exact List.mem_singleton.mpr (Except.error.inj hs).symm
    · cases hs
  | iput ip =>
    simp only [Op.exec, World.iput] at hs
    split at hs
    · split at hs
      · exact List.mem_singleton.mpr (Except.error.inj hs).symm
      · cases hs
    · cases hs
  | bfree ip b indirect =>
    simp only [Op.exec, World.bfree] at hs
    split at hs
    · exact List.mem_singleton.mpr (Except.error.inj hs).symm
    · cases hs
  | takeCwd =>
    simp only [Op.exec, World.takeCwd] at hs
    split at hs
    · exact List.mem_singleton.mpr (Except.error.inj hs).symm
    · cases hs
  | fileInit fd ip =>
    simp only [Op.exec, World.fileInit] at hs
    split at hs
    · exact List.mem_singleton.mpr (Except.error.inj hs).symm
    · cases hs
  | fileclose fd =>
    simp only [Op.exec, World.fileclose] at hs
    split at hs
    · cases hs
    split at hs
    · exact List.mem_singleton.mpr (Except.error.inj hs).symm
    split at hs <;> cases hs
  | dup fd => exact List.mem_singleton.mpr (World.dup_error hs)
  | fork =>
    rcases World.fork_error hs with he | he
    · exact List.mem_cons.mpr (.inl he)
    · exact List.mem_cons_of_mem _ (List.mem_singleton.mpr he)
  | panic m => exact List.mem_singleton.mpr (Except.error.inj hs).symm
  | iupdate ip d => cases hs
  | invalidate ip => cases hs
  | drop ip => cases hs
  | claim inum type => cases hs
  | balloc ip indirect => cases hs
  | setCwd ip => cases hs
  | filealloc => cases hs
  | exit => cases hs

namespace Base

theorem same (hb : Base c w H) : Base c w (Function.update H p (H p)) := by
  rw [Function.update_eq_self]
  exact hb

/-- The lock of an inode with one reference is free, unless who has the reference has the lock. -/
theorem lock_none {loaded : Bool} (hb : Base c w H) (hp : H p = .ref ip inum loaded ::ₘ r)
    (hr : (w.inode ip).ref = 1) : (w.inode ip).lock = none := by
  obtain ⟨hent, hon, -⟩ := hb.held hp rfl
  obtain ⟨-, hrest, hother⟩ := hent.alone hon hr
  cases hl : (w.inode ip).lock with
  | none => rfl
  | some q =>
    obtain ⟨x, hx, hxl⟩ := (hent.lock q).mp hl
    by_cases hq : q = p
    · subst hq
      rw [hon, hrest] at hx
      obtain rfl := Multiset.mem_singleton.mp hx
      cases hxl
    · rw [hother q hq] at hx
      simp at hx

/-- No section that the rules allow ends in a panic of misuse. -/
theorem exec_error {o : Op} {K : Reply o → Multiset Hold → Prop} {e : Stop} (hb : Base c w H)
    (ha : allows o (H p) K) (hs : o.exec p w = .error e) : Lawful e := by
  have hmem := Op.exec_stops hs
  rintro m rfl
  cases o with
  | acquiresleep ip =>
    obtain ⟨inum, loaded, r, hp, -⟩ := ha
    have hpos : 0 < (w.inode ip).ref := by
      rcases hp with hp | ⟨hp, -⟩
      · exact (hb.held hp rfl).2.2.1
      · exact (hb.held hp rfl).2.2.1
    simp only [Op.exec, World.acquiresleep, if_neg (show ¬(w.inode ip).ref < 1 by omega)] at hs
    split at hs <;> cases hs
  | iunlock ip =>
    obtain ⟨inum, d, r, hp, -⟩ := ha
    obtain ⟨hent, hon, hpos, -⟩ := hb.held hp rfl
    have hown := hent.owner hon rfl
    have hok : ¬((w.inode ip).lock ≠ some p ∨ (w.inode ip).ref < 1) := by
      rintro (hl | hr)
      · exact hl hown
      · omega
    simp only [Op.exec, World.iunlock, if_neg hok] at hs
    cases hs
  | iput ip =>
    obtain ⟨inum, loaded, r, hp, -⟩ := ha
    simp only [Op.exec, World.iput] at hs
    split at hs
    · rename_i hlast
      rw [hb.lock_none hp hlast.1] at hs
      cases hs
    · cases hs
  | panic m' =>
    obtain rfl : m = m' := by simpa [Op.stops] using hmem
    exact ha
  | fork =>
    rcases List.mem_cons.mp hmem with he | he
    · cases he
      rfl
    · cases List.mem_singleton.mp he
      rfl
  | _ =>
    first
      | cases List.mem_singleton.mp hmem; rfl
      | cases hmem

/-- Every section that the rules allow keeps the invariant. -/
theorem exec_ok {o : Op} {K : Reply o → Multiset Hold → Prop} {x : Reply o} (hb : Base c w H)
    (hlive : (w.proc p).live = true) (ha : allows o (H p) K) (hs : o.exec p w = .ok (x, w')) :
    ∃ m, Base c w' (Function.update H p m) ∧ pointersOf m = o.pointers x (pointersOf (H p)) ∧
      K x m := by
  cases o with
  | iget inum ialloc =>
    cases ialloc with
    | false => exact ⟨_, hb.iget hs (.inl ⟨rfl, rfl⟩), pointersOf_cons rfl, ha x⟩
    | true =>
      obtain ⟨r, hp, hk⟩ := ha
      refine ⟨_, hb.iget hs (.inr ⟨rfl, hp⟩), ?_, hk x⟩
      rw [pointersOf_cons rfl, hp, pointersOf_cons_none rfl]
      rfl
  | idupCwd => exact ⟨_, hb.idupCwd hs, pointersOf_cons rfl, ha x _⟩
  | acquiresleep ip =>
    obtain ⟨inum, loaded, r, hp, hk⟩ := ha
    refine ⟨_, hb.acquiresleep hs hp, ?_, hk⟩
    rcases hp with hp | ⟨hp, -⟩
    · exact pointersOf_swap hp rfl
    · exact pointersOf_swap hp rfl
  | load ip =>
    obtain ⟨inum, loaded, r, hp, hk⟩ := ha
    obtain ⟨i, d⟩ := x
    obtain ⟨rfl, ht, -, hb'⟩ := hb.load hs hp
    exact ⟨_, hb', pointersOf_swap hp rfl, hk d ht⟩
  | iunlock ip =>
    obtain ⟨inum, d, r, hp, hk⟩ := ha
    exact ⟨_, hb.iunlock hs hp, pointersOf_swap hp rfl, hk⟩
  | iupdate ip d' =>
    obtain ⟨inum, freeing, m, d, r, hp, hbl, hw, hn, hk⟩ := ha
    cases hs
    rcases hk with ⟨ht, hk⟩ | ⟨ht, hf, he, hk⟩
    · exact ⟨_, hb.iupdate hp hbl hw hn (.inl ⟨ht, rfl⟩), pointersOf_swap hp rfl, hk⟩
    · exact ⟨_, hb.iupdate hp hbl hw hn (.inr ⟨ht, hf, he, rfl⟩), pointersOf_swap hp rfl, hk⟩
  | iput ip =>
    obtain ⟨inum, loaded, r, hp, hr, hk, hk'⟩ := ha
    rcases hb.iput hs hp hr with ⟨rfl, hb'⟩ | ⟨d, rfl, ht, hn, hb'⟩
    · exact ⟨_, hb', pointersOf_erase hp rfl, hk⟩
    · exact ⟨_, hb', pointersOf_swap hp rfl, hk' d ht hn⟩
  | invalidate ip =>
    obtain ⟨inum, r, hp, hk⟩ := ha
    cases hs
    exact ⟨_, hb.invalidate hp, pointersOf_swap hp rfl, hk⟩
  | drop ip =>
    obtain ⟨inum, r, hp, hr, hk⟩ := ha
    cases hs
    exact ⟨_, hb.drop hp hr, pointersOf_erase hp rfl, hk⟩
  | claim inum type =>
    obtain ⟨ht, hk, hk'⟩ := ha
    rcases hb.claim (Except.ok.inj hs) ht with ⟨rfl, rfl⟩ | ⟨rfl, hb'⟩
    · exact ⟨H p, hb.same, rfl, hk⟩
    · exact ⟨_, hb', pointersOf_cons_none rfl, hk'⟩
  | balloc ip indirect =>
    obtain ⟨inum, m, d, r, hp, hi, hk, hk'⟩ := ha
    rcases hb.balloc (Except.ok.inj hs) hp hi with ⟨rfl, rfl⟩ | ⟨b, rfl, hb'⟩
    · exact ⟨H p, hb.same, rfl, hk⟩
    · exact ⟨_, hb', pointersOf_swap hp rfl, hk' b⟩
  | bfree ip b indirect =>
    obtain ⟨inum, freeing, m, d, r, hp, hi, hk⟩ := ha
    exact ⟨_, hb.bfree hs hp hi, pointersOf_swap hp rfl, hk⟩
  | takeCwd =>
    refine ⟨_, hb.takeCwd false hs, ?_, ha _ _ _⟩
    rw [pointersOf_cons rfl, pointersOf_cons_none rfl]
    rfl
  | setCwd ip =>
    obtain ⟨inum, r, hp, hk⟩ := ha
    cases hs
    refine ⟨_, hb.setCwd hp, ?_, hk⟩
    rw [← pointersOf_cons_none (h := .adrift) rfl]
    exact pointersOf_erase hp rfl
  | filealloc =>
    obtain ⟨hk, hk'⟩ := ha
    rcases hb.filealloc (Except.ok.inj hs) hlive with ⟨rfl, rfl⟩ | ⟨fd, rfl, -, -, hb'⟩
    · exact ⟨H p, hb.same, rfl, hk⟩
    · exact ⟨_, hb', pointersOf_cons_none rfl, hk' fd⟩
  | fileInit fd ip =>
    obtain ⟨inum, r, hp, hk⟩ := ha
    refine ⟨_, hb.fileInit hs hp, ?_, hk⟩
    rw [← pointersOf_cons_none (h := .reserved fd) rfl]
    exact pointersOf_erase hp rfl
  | fileclose fd =>
    obtain ⟨hres, hk, hk', hk''⟩ := ha
    rcases hb.fileclose false hs hres with ⟨rfl, rfl⟩ | ⟨rfl, hb'⟩ | ⟨ip, rfl, hb'⟩
    · exact ⟨H p, hb.same, rfl, hk⟩
    · exact ⟨H p, hb', rfl, hk'⟩
    · exact ⟨_, hb', pointersOf_cons rfl, hk'' ip _ _⟩
  | dup fd =>
    obtain ⟨hres, hk⟩ := ha
    exact ⟨H p, (hb.sysDup hs hlive hres).2.2, rfl, hk x⟩
  | fork =>
    obtain ⟨hres, hk⟩ := ha
    exact ⟨H p, hb.fork hs hres, rfl, hk x⟩
  | exit =>
    obtain ⟨hres, r, hp, hk⟩ := ha
    cases hs
    refine ⟨r, hb.exit hp hres, ?_, hk⟩
    rw [hp]
    exact (pointersOf_cons_none rfl).symm
  | panic m => cases hs

end Base

end Xv6.Fs
