import Xv6.Fs.TableSteps
import Mathlib.Algebra.BigOperators.Fin

namespace Xv6.Fs

open Xv6.Framework

variable {c : Prop} {w w' : World} {H : Holds} {p : ProcId} {ip : Ip} {m r : Multiset Hold} {h : Hold}
  {inum : Nat} {fd : Fin NOFILE}

namespace World

theorem anchors_setProc (w : World) (p : ProcId) (v : Proc) (e : Ip) :
    (w.setProc p v).anchors e + (if (w.proc p).cwd = some e then 1 else 0) =
      w.anchors e + (if v.cwd = some e then 1 else 0) := by
  have h : cwdAnchors (update w.proc p v) e + (if (w.proc p).cwd = some e then 1 else 0) =
      cwdAnchors w.proc e + (if v.cwd = some e then 1 else 0) := by
    unfold cwdAnchors
    exact sum_update_add w.proc (fun _ v => if v.cwd = some e then 1 else 0) p v
  simp only [anchors, setProc]
  omega

theorem anchors_setFile (w : World) (f : Fin NFILE) (v : File) (e : Ip) :
    (w.setFile f v).anchors e + (if (w.file f).ip = some e then 1 else 0) =
      w.anchors e + (if v.ip = some e then 1 else 0) := by
  have h : fileAnchors (update w.file f v) e + (if (w.file f).ip = some e then 1 else 0) =
      fileAnchors w.file e + (if v.ip = some e then 1 else 0) := by
    unfold fileAnchors
    exact sum_update_add w.file (fun _ v => if v.ip = some e then 1 else 0) f v
  simp only [anchors, setFile]
  omega

theorem slots_setProc (w : World) (p : ProcId) (v : Proc) (f : Fin NFILE) :
    (w.setProc p v).slots f + slotsOf (w.proc p).ofile f = w.slots f + slotsOf v.ofile f := by
  unfold slots
  exact sum_update_add w.proc (fun _ v => slotsOf v.ofile f) p v

theorem slots_of_ofile (w : World) (p : ProcId) (v : Proc)
    (hv : v.ofile = (w.proc p).ofile) (f : Fin NFILE) :
    (w.setProc p v).slots f = w.slots f := by
  have h := slots_setProc w p v f
  rw [hv] at h
  omega

theorem slotsOf_le (w : World) (p : ProcId) (f : Fin NFILE) :
    slotsOf (w.proc p).ofile f ≤ w.slots f := by
  unfold slots
  exact le_sum_univ (fun p => slotsOf (w.proc p).ofile f) p

variable {f : Fin NFILE}

/-- Two processes with a descriptor each of one file structure. -/
theorem two_le_slots {q : ProcId} {fd' : Fin NOFILE} (hne : q ≠ p)
    (h : (w.proc p).ofile fd = some f) (h' : (w.proc q).ofile fd' = some f) : 2 ≤ w.slots f := by
  have h1 := add_le_sum_univ (fun p => slotsOf (w.proc p).ofile f) hne
  have h2 := slotsOf_pos h
  have h3 := slotsOf_pos h'
  have h4 : ∑ p, slotsOf (w.proc p).ofile f = w.slots f := by
    unfold slots
    rfl
  omega

theorem anchors_of_ip (w : World) (f : Fin NFILE) (v : File) (hv : v.ip = (w.file f).ip) (e : Ip) :
    (w.setFile f v).anchors e = w.anchors e := by
  have h := anchors_setFile w f v e
  rw [hv] at h
  omega

theorem anchors_of_cwd (w : World) (p : ProcId) (v : Proc) (hv : v.cwd = (w.proc p).cwd) (e : Ip) :
    (w.setProc p v).anchors e = w.anchors e := by
  have h := anchors_setProc w p v e
  rw [hv] at h
  omega

theorem slots_setFile (w : World) (f : Fin NFILE) (v : File) (f' : Fin NFILE) :
    (w.setFile f v).slots f' = w.slots f' :=
  slots_congr w (w.setFile f v) (fun _ => rfl) f'

theorem slots_open (w : World) (p : ProcId) (v : Proc) {fd : Fin NOFILE}
    (hv : v.ofile = update (w.proc p).ofile fd (some f))
    (hn : (w.proc p).ofile fd = none) (f' : Fin NFILE) :
    (w.setProc p v).slots f' = w.slots f' + if f' = f then 1 else 0 := by
  have h1 := slots_setProc w p v f'
  have h2 := slotsOf_update (w.proc p).ofile fd (some f) f'
  rw [hv] at h1
  simp only [hn, Option.some.injEq, reduceCtorEq, if_false, eq_comm (a := f)] at h2
  omega

theorem slots_close (w : World) (p : ProcId) (v : Proc) {fd : Fin NOFILE}
    (hv : v.ofile = update (w.proc p).ofile fd none)
    (ho : (w.proc p).ofile fd = some f) (f' : Fin NFILE) :
    (w.setProc p v).slots f' + (if f' = f then 1 else 0) = w.slots f' := by
  have h1 := slots_setProc w p v f'
  have h2 := slotsOf_update (w.proc p).ofile fd none f'
  rw [hv] at h1
  simp only [ho, Option.some.injEq, reduceCtorEq, if_false, eq_comm (a := f)] at h2
  omega

end World

theorem Blocks.congr (hB : Blocks w) (hu : w'.used = w.used) (hd : w'.disk = w.disk)
    (hi : w'.inode = w.inode) (hm : w'.nmeta = w.nmeta) : Blocks w' := by
  constructor
  · rw [hd]
    exact hB.tidy
  · intro b
    rw [hu, hm]
    intro h1 h2
    obtain ⟨i, d, hc, hb⟩ := hB.owned b h1 h2
    refine ⟨i, d, ?_, hb⟩
    unfold World.Current at hc ⊢
    rw [hi, hd]
    exact hc

theorem Entries.congr (hE : Entries w H) (hi : w'.inode = w.inode) (hd : w'.disk = w.disk)
    (ha : ∀ e, w'.anchors e = w.anchors e) (hput : ∀ q, (w'.proc q).iput = (w.proc q).iput)
    (hm : ∀ e, m.filter (·.on = some e) = (H p).filter (·.on = some e)) :
    Entries w' (update H p m) := by
  constructor
  · intro e
    have hs : Holds.on (update H p m) e = H.on e := by
      rw [Holds.on_update, hm e]
      exact update_eq_self p _
    have hent := hE.entry e
    rw [hs, ha e]
    simp only [World.backing, hi, hd, hput]
    exact hent
  · rw [hi]
    exact hE.unique

namespace Procs

/-- A step of a process on its own part of the process table and on the file structures: other
processes keep what they have, and `m` is what it holds then. -/
theorem edit (hP : Procs w H) (hproc : ∀ q, q ≠ p → w'.proc q = w.proc q)
    (hres : ∀ q, q ≠ p → ∀ fd f, (w.proc q).ofile fd = some f → (w.file f).ref = 1 →
      (w.file f).ip = none → (w'.file f).ref = 1 ∧ (w'.file f).ip = none)
    (hm : ∀ x ∈ m, x.Loose w' p) (honce : ∀ x : Hold, x.loose = true → m.count x ≤ 1)
    (hslots : ∀ f, w'.slots f ≤ (w'.file f).ref)
    (hun : ∀ f, (w'.file f).ref = 0 → (w'.file f).ip = none)
    (hidle : (w'.proc p).live = false → (w'.proc p).cwd = none) :
    Procs w' (update H p m) := by
  constructor
  · refine Entry.forall_update hm fun q hq x hx => ?_
    have hx' := hP.loose q x hx
    cases x with
    | adrift =>
      simp only [Hold.Loose, hproc q hq] at hx' ⊢
      exact hx'
    | reserved fd =>
      simp only [Hold.Loose, hproc q hq] at hx' ⊢
      obtain ⟨hl, f, ho, hr, hi⟩ := hx'
      exact ⟨hl, f, ho, hres q hq fd f ho hr hi⟩
    | _ => trivial
  · intro q x hx
    by_cases hq : q = p
    · subst hq
      rw [update_self]
      exact honce x hx
    · rw [update_of_ne hq]
      exact hP.once q x hx
  · exact hslots
  · exact hun
  · intro q hl
    by_cases hq : q = p
    · subst hq
      exact hidle hl
    · rw [hproc q hq] at hl ⊢
      exact hP.idle q hl

theorem setProc {v : Proc} (hP : Procs w H) (hv : v.ofile = (w.proc p).ofile)
    (hm : ∀ x ∈ m, x.Loose (w.setProc p v) p) (honce : ∀ x : Hold, x.loose = true → m.count x ≤ 1)
    (hidle : v.live = false → v.cwd = none) : Procs (w.setProc p v) (update H p m) := by
  refine hP.edit (fun q hq => update_of_ne hq _ _) (fun _ _ _ _ _ h1 h2 => ⟨h1, h2⟩) hm honce ?_
    hP.unopened ?_
  · intro f
    rw [World.slots_of_ofile w p v hv f]
    exact hP.slots f
  · simpa only [World.setProc, update_self] using hidle

theorem once_of_le (hP : Procs w H) (hle : m ≤ H p) (x : Hold) (hx : x.loose = true) :
    m.count x ≤ 1 := (Multiset.count_le_of_le x hle).trans (hP.once p x hx)

theorem notMem (hP : Procs w H) (hp : h ::ₘ r ≤ H p) (hl : h.loose = true) : h ∉ r := by
  intro hm
  have h1 := hP.once_of_le hp h hl
  have h2 := Multiset.count_pos.mpr hm
  rw [Multiset.count_cons_self] at h1
  omega

/-- A hold that is not about the working directory. -/
theorem loose_setProc {v : Proc} {x : Hold} (hP : Procs w H) (hx : x ∈ H p) (hne : x ≠ .adrift)
    (hl : v.live = (w.proc p).live) (ho : v.ofile = (w.proc p).ofile) :
    x.Loose (w.setProc p v) p := by
  have hx' := hP.loose p x hx
  cases x with
  | adrift => exact absurd rfl hne
  | reserved fd => simpa only [Hold.Loose, World.setProc, update_self, hl, ho] using hx'
  | _ => trivial

end Procs

namespace Base

theorem takeCwd (hb : Base c w H) (loaded : Bool) (hs : w.takeCwd p = .ok (ip, w')) :
    Base c w' (update H p (.ref ip (w.inode ip).inum loaded ::ₘ .adrift ::ₘ H p)) := by
  rw [World.takeCwd] at hs
  split at hs
  · cases hs
  rename_i ip' hc
  obtain ⟨rfl, rfl⟩ : ip' = ip ∧ _ = w' := by simpa using hs
  have hlive : (w.proc p).live = true := by
    by_contra hl
    have := hb.procs.idle p (by simpa using hl)
    simp [hc] at this
  have hnot : Hold.adrift ∉ H p := by
    intro hm
    have := (hb.procs.loose p _ hm).2
    simp [hc] at this
  have hanch := World.anchors_setProc w p { w.proc p with cwd := none }
  simp only [hc, reduceCtorEq, if_false, Nat.add_zero] at hanch
  refine ⟨hb.entries.unanchor rfl rfl (World.setProc_field w p Proc.iput rfl) hanch fun e => ?_,
    hb.procs.setProc rfl ?_ ?_ fun _ => rfl, fun h => (hb.blocks h).congr rfl rfl rfl rfl⟩
  · exact Multiset.filter_cons_of_neg _ (by simp [Hold.on])
  · intro x hx
    rcases Multiset.mem_cons.mp hx with rfl | hx
    · trivial
    rcases Multiset.mem_cons.mp hx with rfl | hx
    · simpa [Hold.Loose, World.setProc] using hlive
    · exact hb.procs.loose_setProc hx (ne_of_mem_of_not_mem hx hnot) rfl rfl
  · intro x hx
    refine Nat.le_trans (count_add rfl x hx) ?_
    by_cases hxa : x = .adrift
    · subst hxa
      rw [Multiset.count_cons_self, Multiset.count_eq_zero_of_notMem hnot]
    · rw [Multiset.count_cons_of_ne hxa]
      exact hb.procs.once p x hx

theorem setCwd (hb : Base c w H) (hp : H p = .ref ip inum true ::ₘ .adrift ::ₘ r) :
    Base c (w.setCwd p ip) (update H p r) := by
  obtain ⟨hlive, hnone⟩ := hb.procs.loose p .adrift (by simp [hp])
  have hle : .adrift ::ₘ r ≤ H p := by
    rw [hp]
    exact Multiset.le_cons_self _ _
  have hle' : r ≤ H p := (Multiset.le_cons_self _ _).trans hle
  have hanch : ∀ e, (w.setCwd p ip).anchors e + _ = _ :=
    World.anchors_setProc w p { w.proc p with cwd := some ip }
  simp only [hnone, reduceCtorEq, if_false, Nat.add_zero] at hanch
  refine ⟨hb.entries.anchor hp rfl rfl (World.setProc_field w p Proc.iput rfl) hanch fun e => ?_,
    hb.procs.setProc rfl (fun x hx => ?_) (hb.procs.once_of_le hle') fun hl => ?_,
    fun h => (hb.blocks h).congr rfl rfl rfl rfl⟩
  · exact (Multiset.filter_cons_of_neg _ (by simp [Hold.on])).symm
  · exact hb.procs.loose_setProc (Multiset.mem_of_le hle' hx)
      (ne_of_mem_of_not_mem hx (hb.procs.notMem hle rfl)) rfl rfl
  · simp [hlive] at hl

theorem exit (hb : Base c w H) (hp : H p = .adrift ::ₘ r) (hres : ∀ fd, Hold.reserved fd ∉ H p) :
    Base c (w.exit p) (update H p r) := by
  obtain ⟨-, hnone⟩ := hb.procs.loose p .adrift (by simp [hp])
  have hle : .adrift ::ₘ r ≤ H p := hp.ge
  have hcwd := World.setProc_field w p (v := { w.proc p with live := false }) Proc.cwd rfl
  refine ⟨hb.entries.congr rfl rfl (World.anchors_congr w _ rfl hcwd)
    (World.setProc_field w p Proc.iput rfl) fun e => ?_, hb.procs.setProc rfl (fun x hx => ?_)
    (hb.procs.once_of_le ((Multiset.le_cons_self _ _).trans hle)) fun _ => hnone,
    fun h => (hb.blocks h).congr rfl rfl rfl rfl⟩
  · rw [hp]
    exact (Multiset.filter_cons_of_neg _ (by simp [Hold.on])).symm
  · cases x with
    | adrift => exact absurd hx (hb.procs.notMem hle rfl)
    | reserved fd => exact absurd (by simp [hp, hx]) (hres fd)
    | _ => trivial

/-- A file structure that belongs to one descriptor only. -/
theorem reserved_ne (hb : Base c w H) {q : ProcId} {fd' : Fin NOFILE} {f f' : Fin NFILE}
    (hne : q ≠ p) (h : (w.proc p).ofile fd = some f) (hr : (w.file f').ref = 1)
    (h' : (w.proc q).ofile fd' = some f') : f' ≠ f := by
  rintro rfl
  have h1 := World.two_le_slots hne h h'
  have h2 := hb.procs.slots f'
  omega

theorem fileInit (hb : Base c w H) (hs : w.fileInit p fd ip = .ok ((), w'))
    (hp : H p = .ref ip inum true ::ₘ .reserved fd ::ₘ r) : Base c w' (update H p r) := by
  obtain ⟨-, f, hof, href, hip⟩ := hb.procs.loose p (.reserved fd) (by simp [hp])
  simp only [World.fileInit, hof] at hs
  cases hs
  have hfile : ∀ f', f' ≠ f → (w.setFile f { w.file f with ip := some ip }).file f' = w.file f' :=
    fun f' hf => update_of_ne hf _ _
  have hself : (w.setFile f { w.file f with ip := some ip }).file f = { w.file f with ip := some ip } :=
    update_self _ _ _
  have hanch := World.anchors_setFile w f { w.file f with ip := some ip }
  simp only [hip, reduceCtorEq, if_false, Nat.add_zero] at hanch
  have hle : .reserved fd ::ₘ r ≤ H p := by
    rw [hp]
    exact Multiset.le_cons_self _ _
  have hle' : r ≤ H p := (Multiset.le_cons_self _ _).trans hle
  refine ⟨hb.entries.anchor hp rfl rfl (fun _ => rfl) hanch fun e => ?_, hb.procs.edit (fun _ _ => rfl)
    ?_ ?_ (hb.procs.once_of_le hle') ?_ ?_ (hb.procs.idle p),
    fun h => (hb.blocks h).congr rfl rfl rfl rfl⟩
  · exact (Multiset.filter_cons_of_neg _ (by simp [Hold.on])).symm
  · intro q hq fd' f' ho hr hi
    rw [hfile f' (hb.reserved_ne hq hof hr ho)]
    exact ⟨hr, hi⟩
  · intro x hx
    have hx' := hb.procs.loose p x (Multiset.mem_of_le hle' hx)
    cases x with
    | reserved fd' =>
      obtain ⟨hl, f', ho, hr, hi⟩ := hx'
      have hne : fd' ≠ fd := fun h => hb.procs.notMem hle rfl (h ▸ hx)
      have hf : f' ≠ f := by
        rintro rfl
        have h1 := two_le_slotsOf hne hof ho
        have h2 := World.slotsOf_le w p f'
        have h3 := hb.procs.slots f'
        omega
      exact ⟨hl, f', ho, by rw [hfile f' hf]; exact hr, by rw [hfile f' hf]; exact hi⟩
    | adrift => exact hx'
    | _ => trivial
  · intro f'
    rw [World.slots_setFile]
    by_cases hf : f' = f
    · subst hf
      rw [hself]
      exact hb.procs.slots f'
    · rw [hfile f' hf]
      exact hb.procs.slots f'
  · intro f' hr
    by_cases hf : f' = f
    · subst hf
      rw [hself] at hr
      simp [href] at hr
    · rw [hfile f' hf] at hr ⊢
      exact hb.procs.unopened f' hr

theorem fdalloc_eq {f : Fin NFILE} (hs : w.fdalloc p f = some (fd, w')) :
    (w.proc p).ofile fd = none ∧ w' = w.setProc p
      ⟨(w.proc p).live, (w.proc p).cwd, update (w.proc p).ofile fd (some f),
        (w.proc p).iput⟩ := by
  rw [World.fdalloc] at hs
  split at hs
  · cases hs
  rename_i fd' hfree
  cases hs
  have h := List.find?_some hfree
  exact ⟨of_decide_eq_true h, rfl⟩

/-- A new descriptor of a file structure: one that was not in use, or one that the process has
already. -/
theorem setOfile {f : Fin NFILE} (hb : Base c w H) (hnone : (w.proc p).ofile fd = none)
    (hlive : (w.proc p).live = true)
    (hm : m = H p ∧ (∀ fd, Hold.reserved fd ∉ H p) ∧ (∃ fd', (w.proc p).ofile fd' = some f) ∨
      m = .reserved fd ::ₘ H p ∧ (w.file f).ref = 0) :
    Base c ((w.setProc p ⟨(w.proc p).live, (w.proc p).cwd,
        update (w.proc p).ofile fd (some f), (w.proc p).iput⟩).setFile f
          ⟨(w.file f).ref + 1, (w.file f).ip⟩) (update H p m) := by
  generalize hv : (⟨(w.proc p).live, (w.proc p).cwd, update (w.proc p).ofile fd (some f),
    (w.proc p).iput⟩ : Proc) = v
  have hproc : ∀ q, q ≠ p → (w.setProc p v).proc q = w.proc q :=
    fun q hq => update_of_ne hq _ _
  have hself : (w.setProc p v).proc p = v := update_self _ _ _
  generalize hu : (⟨(w.file f).ref + 1, (w.file f).ip⟩ : File) = u
  have hfile : ∀ f', f' ≠ f → ((w.setProc p v).setFile f u).file f' = w.file f' :=
    fun f' hf => update_of_ne hf _ _
  have hfself : ((w.setProc p v).setFile f u).file f = u := update_self _ _ _
  have hur : u.ref = (w.file f).ref + 1 := by rw [← hu]
  have hvl : ((w.setProc p v).proc p).live = (w.proc p).live := by rw [hself, ← hv]
  have hvo : v.ofile = update (w.proc p).ofile fd (some f) := by rw [← hv]
  have hnot : Hold.reserved fd ∉ H p := by
    intro hx
    obtain ⟨-, f', ho, -⟩ := hb.procs.loose p _ hx
    simp [hnone] at ho
  have hslots : ∀ f', ((w.setProc p v).setFile f u).slots f' =
      w.slots f' + if f' = f then 1 else 0 := fun f' =>
    (World.slots_setFile _ f u f').trans (World.slots_open w p v hvo hnone f')
  have hdirs : ∀ e, ((w.setProc p v).setFile f u).anchors e = w.anchors e := fun e =>
    (World.anchors_of_ip _ f u (by rw [← hu]; rfl) e).trans
      (World.anchors_of_cwd w p v (by rw [← hv]) e)
  refine ⟨hb.entries.congr rfl rfl hdirs (World.setProc_field w p Proc.iput (by rw [← hv])) ?_,
    hb.procs.edit hproc ?_ ?_ ?_ ?_ ?_ ?_, fun h => (hb.blocks h).congr rfl rfl rfl rfl⟩
  · intro e
    rcases hm with ⟨rfl, -⟩ | ⟨rfl, -⟩
    · rfl
    · exact Multiset.filter_cons_of_neg _ (by simp [Hold.on])
  · intro q hq fd' f' ho hr hi
    have hf : f' ≠ f := by
      rcases hm with ⟨-, -, fd₀, hfd₀⟩ | ⟨-, hz⟩
      · exact hb.reserved_ne hq hfd₀ hr ho
      · rintro rfl
        omega
    rw [hfile f' hf]
    exact ⟨hr, hi⟩
  · intro x hx
    have hold : x ∈ H p → x.Loose ((w.setProc p v).setFile f u) p := by
      intro hx
      have hx' := hb.procs.loose p x hx
      cases x with
      | adrift =>
        show ((w.setProc p v).proc p).live = true ∧ ((w.setProc p v).proc p).cwd = none
        rw [hself, ← hv]
        exact hx'
      | reserved fd' =>
        rcases hm with ⟨-, hres, -⟩ | ⟨-, hz⟩
        · exact absurd hx (hres fd')
        obtain ⟨hl, f', ho, hr, hi⟩ := hx'
        have hf : f' ≠ f := fun h => by rw [h] at hr; omega
        refine ⟨hvl.trans hl, f', ?_, by rw [hfile f' hf]; exact hr,
          by rw [hfile f' hf]; exact hi⟩
        show ((w.setProc p v).proc p).ofile fd' = some f'
        have hfd : fd' ≠ fd := by
          rintro rfl
          exact hnot hx
        rw [hself, hvo, update_of_ne hfd]
        exact ho
      | _ => trivial
    rcases hm with ⟨rfl, -⟩ | ⟨rfl, hz⟩
    · exact hold hx
    rcases Multiset.mem_cons.mp hx with rfl | hx
    · refine ⟨hvl.trans hlive, f, ?_, by rw [hfself, hur, hz], ?_⟩
      · show ((w.setProc p v).proc p).ofile fd = some f
        rw [hself, hvo, update_self]
      · rw [hfself, ← hu]
        exact hb.procs.unopened f hz
    · exact hold hx
  · intro x hx
    rcases hm with ⟨rfl, -⟩ | ⟨rfl, -⟩
    · exact hb.procs.once p x hx
    by_cases hxr : x = .reserved fd
    · subst hxr
      rw [Multiset.count_cons_self, Multiset.count_eq_zero_of_notMem hnot]
    · rw [Multiset.count_cons_of_ne hxr]
      exact hb.procs.once p x hx
  · intro f'
    have hle := hb.procs.slots f'
    rw [hslots f']
    by_cases hf : f' = f
    · subst hf
      rw [hfself, if_pos rfl]
      omega
    · rw [hfile f' hf, if_neg hf]
      omega
  · intro f' hr
    by_cases hf : f' = f
    · subst hf
      rw [hfself, hur] at hr
      cases hr
    · rw [hfile f' hf] at hr ⊢
      exact hb.procs.unopened f' hr
  · show ((w.setProc p v).proc p).live = false → ((w.setProc p v).proc p).cwd = none
    rw [hself, ← hv]
    exact hb.procs.idle p

theorem filealloc {x : Option (Fin NOFILE)} (hb : Base c w H) (hs : w.filealloc p = (x, w'))
    (hlive : (w.proc p).live = true) :
    x = none ∧ w' = w ∨ ∃ fd, x = some fd ∧ w'.disk = w.disk ∧ w'.inode = w.inode ∧
      Base c w' (update H p (.reserved fd ::ₘ H p)) := by
  rw [World.filealloc] at hs
  split at hs
  · cases hs
    exact .inl ⟨rfl, rfl⟩
  rename_i f hfind
  have href : (w.file f).ref = 0 := by
    have h := List.find?_some hfind
    exact of_decide_eq_true h
  have hip := hb.procs.unopened f href
  split at hs
  · cases hs
    refine .inl ⟨rfl, ?_⟩
    have hsame : (⟨0, none⟩ : File) = w.file f := by
      rw [← href, ← hip]
    rw [World.setFile, hsame, update_eq_self]
  · rename_i fd w'' hfd
    cases hs
    obtain ⟨hnone, rfl⟩ := fdalloc_eq hfd
    refine .inr ⟨fd, rfl, rfl, rfl, ?_⟩
    have hb' := hb.setOfile hnone hlive (.inr ⟨rfl, href⟩)
    rw [href] at hb'
    exact hb'

theorem filedup_eq {f : Fin NFILE} (hs : w.filedup f = .ok w') :
    0 < (w.file f).ref ∧ w' = w.setFile f ⟨(w.file f).ref + 1, (w.file f).ip⟩ := by
  rw [World.filedup] at hs
  split at hs
  · cases hs
  · cases hs
    exact ⟨by omega, rfl⟩

theorem sysDup {x : Option (Fin NOFILE)} (hb : Base c w H) (hs : w.dup p fd = .ok (x, w'))
    (hlive : (w.proc p).live = true) (hres : ∀ fd, Hold.reserved fd ∉ H p) :
    w'.disk = w.disk ∧ w'.inode = w.inode ∧ Base c w' (update H p (H p)) := by
  rw [World.dup] at hs
  split at hs
  · cases hs
    rw [update_eq_self]
    exact ⟨rfl, rfl, hb⟩
  rename_i f ho
  split at hs
  · cases hs
    rw [update_eq_self]
    exact ⟨rfl, rfl, hb⟩
  rename_i fd' w₁ hfd
  split at hs
  · rename_i w₂ hdup
    cases hs
    obtain ⟨hnone, rfl⟩ := fdalloc_eq hfd
    obtain ⟨-, rfl⟩ := filedup_eq hdup
    exact ⟨rfl, rfl, hb.setOfile hnone hlive (.inl ⟨rfl, hres, fd, ho⟩)⟩
  · cases hs

/-- A descriptor that is closed, with the file structure that it had. -/
theorem closeOfile {f : Fin NFILE} {u : File} (hb : Base c w H) (ho : (w.proc p).ofile fd = some f)
    (hres : ∀ fd, Hold.reserved fd ∉ H p) (hm : ∀ x : Hold, x.loose = true → m.count x = (H p).count x)
    (hu : u.ref + 1 = (w.file f).ref) (hz : u.ref = 0 → u.ip = none) :
    Procs ((w.setProc p ⟨(w.proc p).live, (w.proc p).cwd,
      update (w.proc p).ofile fd none, (w.proc p).iput⟩).setFile f u)
      (update H p m) := by
  generalize hv : (⟨(w.proc p).live, (w.proc p).cwd, update (w.proc p).ofile fd none,
    (w.proc p).iput⟩ : Proc) = v
  have hproc : ∀ q, q ≠ p → (w.setProc p v).proc q = w.proc q :=
    fun q hq => update_of_ne hq _ _
  have hself : (w.setProc p v).proc p = v := update_self _ _ _
  have hfile : ∀ f', f' ≠ f → ((w.setProc p v).setFile f u).file f' = w.file f' :=
    fun f' hf => update_of_ne hf _ _
  have hfself : ((w.setProc p v).setFile f u).file f = u := update_self _ _ _
  refine hb.procs.edit hproc ?_ ?_ ?_ ?_ ?_ ?_
  · intro q hq fd' f' ho' hr hi
    rw [hfile f' (hb.reserved_ne hq ho hr ho')]
    exact ⟨hr, hi⟩
  · intro x hx
    have hx' : x.loose = true → x ∈ H p := fun hl => by
      rw [← Multiset.count_pos, ← hm x hl, Multiset.count_pos]
      exact hx
    cases x with
    | adrift =>
      show ((w.setProc p v).proc p).live = true ∧ ((w.setProc p v).proc p).cwd = none
      rw [hself, ← hv]
      exact hb.procs.loose p _ (hx' rfl)
    | reserved fd' => exact absurd (hx' rfl) (hres fd')
    | _ => trivial
  · intro x hx
    rw [hm x hx]
    exact hb.procs.once p x hx
  · intro f'
    rw [World.slots_setFile]
    have h1 := World.slots_close w p v (by rw [← hv]) ho f'
    have h2 := hb.procs.slots f'
    by_cases hf : f' = f
    · subst hf
      rw [if_pos rfl] at h1
      rw [hfself]
      omega
    · rw [hfile f' hf]
      omega
  · intro f' hr
    by_cases hf : f' = f
    · subst hf
      rw [hfself] at hr ⊢
      exact hz hr
    · rw [hfile f' hf] at hr ⊢
      exact hb.procs.unopened f' hr
  · show ((w.setProc p v).proc p).live = false → ((w.setProc p v).proc p).cwd = none
    rw [hself, ← hv]
    exact hb.procs.idle p

theorem fileclose {x : Option (Option Ip)} (hb : Base c w H) (loaded : Bool)
    (hs : w.fileclose p fd = .ok (x, w')) (hres : ∀ fd, Hold.reserved fd ∉ H p) :
    x = none ∧ w' = w ∨ x = some none ∧ Base c w' (update H p (H p)) ∨
      ∃ ip, x = some (some ip) ∧
        Base c w' (update H p (.ref ip (w.inode ip).inum loaded ::ₘ H p)) := by
  rw [World.fileclose] at hs
  split at hs
  · cases hs
    exact .inl ⟨rfl, rfl⟩
  rename_i f ho
  generalize hv : (⟨(w.proc p).live, (w.proc p).cwd, update (w.proc p).ofile fd none,
    (w.proc p).iput⟩ : Proc) = v at hs
  have hput := World.setProc_field w p (v := v) Proc.iput (by rw [← hv])
  have hdirs : ∀ e, (w.setProc p v).anchors e = w.anchors e :=
    World.anchors_of_cwd w p v (by rw [← hv])
  split at hs
  · cases hs
  rename_i hpos
  split at hs
  · rename_i hmore
    cases hs
    have hP := hb.closeOfile (u := ⟨(w.file f).ref - 1, (w.file f).ip⟩) ho hres
      (fun _ _ => rfl) (Nat.sub_add_cancel (by omega)) (fun hz => absurd hz (by show _ - 1 ≠ 0; omega))
    rw [hv] at hP
    refine .inr (.inl ⟨rfl, hb.entries.congr rfl rfl ?_ hput fun _ => rfl,
      hP, fun h => (hb.blocks h).congr rfl rfl rfl rfl⟩)
    exact fun e => (World.anchors_of_ip (w.setProc p v) f
      ⟨(w.file f).ref - 1, (w.file f).ip⟩ rfl e).trans (hdirs e)
  · rename_i hlast
    cases hs
    have hP := fun m hm => hb.closeOfile (m := m) (u := ⟨0, none⟩) ho hres hm
      (by show 0 + 1 = _; omega) fun _ => rfl
    rw [hv] at hP
    have hanch := World.anchors_setFile (w.setProc p v) f ⟨0, none⟩
    simp only [hdirs, show ((w.setProc p v).file f).ip = (w.file f).ip from rfl] at hanch
    cases hip : (w.file f).ip with
    | none =>
      refine .inr (.inl ⟨rfl, hb.entries.congr rfl rfl ?_ hput fun _ => rfl,
        hP (H p) fun _ _ => rfl, fun h => (hb.blocks h).congr rfl rfl rfl rfl⟩)
      intro e
      have := hanch e
      simp only [hip] at this
      exact this
    | some ip =>
      refine .inr (.inr ⟨ip, rfl, hb.entries.unanchor rfl rfl hput (fun e => ?_)
        fun _ => rfl, hP _ fun x hx => ?_, fun h => (hb.blocks h).congr rfl rfl rfl rfl⟩)
      · rw [← hip]
        exact hanch e
      · exact Multiset.count_cons_of_ne (fun hc => by simp [hc, Hold.loose] at hx) _

theorem dupFiles_eq {ofile : Fin NOFILE → Option (Fin NFILE)} {fds : List (Fin NOFILE)}
    (hs : World.dupFiles ofile fds w = .ok w') :
    w' = { w with file := w'.file } ∧ ∀ f, (w'.file f).ip = (w.file f).ip ∧
      (w'.file f).ref = (w.file f).ref + (fds.map fun fd => if ofile fd = some f then 1 else 0).sum := by
  induction fds generalizing w with
  | nil =>
    cases hs
    exact ⟨rfl, fun f => ⟨rfl, by simp⟩⟩
  | cons fd fds ih =>
    rw [World.dupFiles] at hs
    split at hs
    · rename_i hnone
      obtain ⟨hw, hf⟩ := ih hs
      refine ⟨hw, fun f => ?_⟩
      simpa [hnone] using hf f
    · rename_i f₀ hsome
      split at hs
      · rename_i w₁ hdup
        obtain ⟨-, rfl⟩ := filedup_eq hdup
        obtain ⟨hw, hf⟩ := ih hs
        refine ⟨hw, fun f => ?_⟩
        obtain ⟨hip, href⟩ := hf f
        by_cases hff : f = f₀
        · subst hff
          simp only [World.setFile, update_self] at hip href
          refine ⟨hip, ?_⟩
          simp only [List.map_cons, List.sum_cons, hsome, if_true]
          omega
        · simp only [World.setFile, update_of_ne hff] at hip href
          refine ⟨hip, ?_⟩
          simp only [List.map_cons, List.sum_cons, hsome, Option.some.injEq, Ne.symm hff, if_false]
          omega
      · cases hs

/-- The references that fork takes to the files of its process. -/
theorem dupFiles (hb : Base c w H) (hres : ∀ fd, Hold.reserved fd ∉ H p)
    (hs : World.dupFiles (w.proc p).ofile (List.finRange NOFILE) w = .ok w') :
    w' = { w with file := w'.file } ∧
      (∀ f, (w'.file f).ref = (w.file f).ref + slotsOf (w.proc p).ofile f) ∧ Base c w' H := by
  obtain ⟨hw, hf⟩ := dupFiles_eq hs
  generalize hfile : w'.file = file at hw hf
  subst hw
  have hsum : ∀ f, slotsOf (w.proc p).ofile f = ((List.finRange NOFILE).map
      fun fd => if (w.proc p).ofile fd = some f then 1 else 0).sum := by
    intro f
    unfold slotsOf
    exact Fin.sum_univ_def _
  have href : ∀ f, (file f).ref = (w.file f).ref + slotsOf (w.proc p).ofile f := by
    intro f
    rw [hsum]
    exact (hf f).2
  have hslots : ∀ f, World.slots { w with file := file } f = w.slots f :=
    World.slots_congr w _ fun _ => rfl
  have hanch : ∀ e, World.anchors { w with file := file } e = w.anchors e := by
    intro e
    unfold World.anchors World.fileAnchors
    simp only [(hf _).1]
  have hE : Entries { w with file := file } (update H p (H p)) :=
    hb.entries.congr rfl rfl hanch (fun _ => rfl) fun _ => rfl
  have hP : Procs { w with file := file } (update H p (H p)) := by
    refine hb.procs.edit (fun _ _ => rfl) ?_ ?_ (hb.procs.once p) ?_ ?_ (hb.procs.idle p)
    · intro q hq fd f ho hr hi
      -- nobody else has a descriptor of a file structure that is reserved
      have hz : slotsOf (w.proc p).ofile f = 0 := by
        by_contra hne
        have h1 := add_le_sum_univ (fun p => slotsOf (w.proc p).ofile f) hq
        have h2 := slotsOf_pos ho
        have h3 : ∑ p, slotsOf (w.proc p).ofile f = w.slots f := by
          unfold World.slots
          rfl
        have h4 := hb.procs.slots f
        omega
      exact ⟨by rw [href, hz, hr], by rw [(hf f).1, hi]⟩
    · intro x hx
      have hx' := hb.procs.loose p x hx
      cases x with
      | adrift => exact hx'
      | reserved fd => exact absurd hx (hres fd)
      | _ => trivial
    · intro f
      rw [hslots]
      show _ ≤ (file f).ref
      have := hb.procs.slots f
      rw [href]
      omega
    · intro f hr
      show (file f).ip = none
      rw [(hf f).1]
      refine hb.procs.unopened f ?_
      have h1 : (file f).ref = 0 := hr
      rw [href] at h1
      omega
  rw [update_eq_self] at hE hP
  exact ⟨rfl, href, hE, hP, fun h => (hb.blocks h).congr rfl rfl rfl rfl⟩

theorem fork {x : Option ProcId} (hb : Base c w H) (hs : w.fork p = .ok (x, w'))
    (hres : ∀ fd, Hold.reserved fd ∉ H p) : Base c w' (update H p (H p)) := by
  rw [update_eq_self]
  rw [World.fork] at hs
  split at hs
  · cases hs
    exact hb
  rename_i np hfind
  have hdead : (w.proc np).live = false := by
    have h := List.find?_some hfind
    exact of_decide_eq_true h
  split at hs
  · cases hs
  rename_i w₁ hdup
  obtain ⟨hw₁, href, hb₁⟩ := hb.dupFiles hres hdup
  split at hs
  · cases hs
  rename_i ip w₂ hidup
  cases hs
  have hb₂ := hb₁.idupCwd hidup
  have hw₂ : ∃ v, w₂ = w₁.setInode ip v := by
    rw [World.idupCwd] at hidup
    split at hidup
    · cases hidup
    · cases hidup
      exact ⟨_, rfl⟩
  obtain ⟨v, hw₂⟩ := hw₂
  have hproc₂ : w₂.proc = w.proc := by rw [hw₂, World.setInode, hw₁]
  have hfile₂ : w₂.file = w₁.file := by rw [hw₂, World.setInode]
  have hcwd : (w₂.proc np).cwd = none := by
    rw [hproc₂]
    exact hb.procs.idle np hdead
  have hP₂ : Procs w₂ H := by
    have h := hb₁.procs.calm (m := H p)
      (show Calm w₁ w₂ by rw [hw₂]; exact calm_setInode w₁ ip v) fun _ _ => Nat.le_refl _
    rwa [update_eq_self] at h
  generalize hnp : (⟨true, some ip, (w.proc p).ofile, (w.proc np).iput⟩ : Proc) = u
  have hproc : ∀ q, q ≠ np → (w₂.setProc np u).proc q = w₂.proc q :=
    fun q hq => update_of_ne hq _ _
  have hself : (w₂.setProc np u).proc np = u := update_self _ _ _
  have hanch := World.anchors_setProc w₂ np u
  simp only [hcwd, show u.cwd = some ip by rw [← hnp], reduceCtorEq, if_false, Nat.add_zero] at hanch
  have hE : Entries (w₂.setProc np u) (update
      (update H p (.ref ip (w₁.inode ip).inum false ::ₘ H p)) p (H p)) := by
    refine hb₂.entries.anchor (update_self _ _ _) rfl rfl ?_ hanch fun _ => rfl
    exact World.setProc_field w₂ np Proc.iput (by rw [hproc₂, ← hnp])
  have hP : Procs (w₂.setProc np u) (update H np (H np)) := by
    refine hP₂.edit hproc (fun _ _ _ _ _ h1 h2 => ⟨h1, h2⟩) ?_ (hP₂.once np) ?_ hP₂.unopened ?_
    · intro x hx
      have hx' := hP₂.loose np x hx
      cases x with
      | adrift => simp [Hold.Loose, hproc₂, hdead] at hx'
      | reserved fd => simp [Hold.Loose, hproc₂, hdead] at hx'
      | _ => trivial
    · intro f
      show _ ≤ (w₂.file f).ref
      have h1 := World.slots_setProc w₂ np u f
      have h2 := World.slots_congr w w₂ (fun q => by rw [hproc₂]) f
      have h3 := hb.procs.slots f
      rw [hfile₂, href]
      rw [show u.ofile = (w.proc p).ofile by rw [← hnp]] at h1
      omega
    · rw [hself, ← hnp]
      intro h
      cases h
  rw [update_eq_self] at hP
  rw [update_idem, update_eq_self] at hE
  exact ⟨hE, hP, fun h => (hb₂.blocks h).congr rfl rfl rfl rfl⟩

end Base

end Xv6.Fs
