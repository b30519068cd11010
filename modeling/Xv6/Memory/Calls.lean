import Xv6.Memory.Exec
import Xv6.Memory.Files

open Xv6.Framework

namespace Xv6.Memory

variable {first : Page} {e e' : List (Fin NFILE)} {w w' : World} {f : Fin NFILE}
  {p : Fin NPROC} {fd : Fin NOFILE}

/-- One slot is replaced; what it gives up in pages goes to the free list, and in open files to
the running call. -/
theorem Good.replace {m : Mem} {s : Slot} (h : Good first e w) (hs : Same w.mem m)
    (hc : ∀ x, m.free x + s.pages x = w.mem.free x + (w.proc p).pages x)
    (hok : Sound w.mem.trampoline s) (hcl : s.state ≠ .live → ∀ fd, s.ofile fd = none)
    (hr : ∀ f, s.grips f + e'.count f = (w.proc p).grips f + e.count f) :
    Good first e' { w with mem := m, proc := update w.proc p s } where
  first := hs.first.trans h.first
  whole := by
    intro x
    have h1 := h.whole x
    have h2 := hc x
    have h3 := hs.frame x
    have h4 := sum_update_add w.proc (fun _ s => Slot.pages s x) p s
    have h5 : World.piped { w with mem := m, proc := update w.proc p s } x = w.piped x := rfl
    rw [World.places] at h1 ⊢
    simp only at h3 h4 ⊢
    omega
  slots := by
    intro q
    rw [hs.trampoline]
    by_cases hq : q = p
    · subst hq
      simp only [update_self]
      exact hok
    · simp only [update_of_ne hq]
      exact h.slots q
  closed := by
    intro q
    by_cases hq : q = p
    · subst hq
      simp only [update_self]
      exact hcl
    · simp only [update_of_ne hq]
      exact h.closed q
  ref := by
    intro f
    have h1 := h.ref f
    have h2 := hr f
    have h3 := sum_update_add w.proc (fun _ s => Slot.grips s f) p s
    show (w.file f).ref = World.refs { w with mem := m, proc := update w.proc p s } f +
      e'.count f
    rw [World.refs] at h1 ⊢
    simp only at h3 ⊢
    omega
  free := h.free
  opened := h.opened
  unique := h.unique
  backed := h.backed

theorem Good.withMem {m : Mem} (h : Good first e w) (hs : Same w.mem m)
    (hf : ∀ x, m.free x = w.mem.free x) : Good first e { w with mem := m } :=
  { h with
    first := hs.first.trans h.first
    whole := fun x => by
      have h1 := h.whole x
      have h2 := hf x
      have h3 := hs.frame x
      have h4 : World.piped { w with mem := m } x = w.piped x := rfl
      rw [World.places] at h1 ⊢
      simp only at h3 ⊢
      omega
    slots := fun p => by
      show Sound m.trampoline (w.proc p)
      rw [hs.trampoline]
      exact h.slots p }

theorem grips_congr {s s' : Slot} (h : s'.ofile = s.ofile) (f : Fin NFILE) :
    s'.grips f = s.grips f := by
  rw [Slot.grips, Slot.grips, h]

theorem Sound.with_ofile {tramp : Page} {s : Slot} (h : Sound tramp s)
    (v : Fin NOFILE → Option (Fin NFILE)) : Sound tramp { s with ofile := v } := by
  rcases h with hu | ⟨tf, pt, hl⟩
  · exact .inl ⟨hu.state, hu.trapframe, hu.pagetable, hu.sz, hu.exec⟩
  · exact .inr ⟨tf, pt, ⟨hl.trapframe, hl.pagetable, hl.spans, hl.kernel⟩, hl.used, hl.loading,
      hl.zombie⟩

theorem pages_with_ofile (s : Slot) (v : Fin NOFILE → Option (Fin NFILE)) (x : Page) :
    Slot.pages { s with ofile := v } x = s.pages x := rfl

def World.withOfile (w : World) (p : Fin NPROC) (fd : Fin NOFILE) (v : Option (Fin NFILE)) : World :=
  let s := { w.proc p with ofile := update (w.proc p).ofile fd v }
  { w with proc := update w.proc p s }

theorem setOfile_eq (w : World) (p : Fin NPROC) (fd : Fin NOFILE) (v : Option (Fin NFILE)) :
    setOfile p fd v w = .ok ((), w.withOfile p fd v) := rfl

theorem Good.withOfile {v : Option (Fin NFILE)} (h : Good first e w)
    (hv : v ≠ none → (w.proc p).state = .live)
    (hr : ∀ f, grip f v + e'.count f = grip f ((w.proc p).ofile fd) + e.count f) :
    Good first e' (w.withOfile p fd v) := by
  refine h.replace (.refl w.mem) (fun x => ?_) ((h.slots p).with_ofile _) ?_ ?_
  · rw [pages_with_ofile]
  · intro hst fd'
    have hn : v = none := by
      by_contra hc
      exact hst (hv hc)
    by_cases hfd : fd' = fd
    · simp [hfd, hn]
    · simp only [update_of_ne hfd]
      exact h.closed p hst fd'
  · intro f
    have h1 := hr f
    have h2 := sum_update_add (w.proc p).ofile (fun _ v => grip f v) fd v
    rw [Slot.grips, Slot.grips]
    simp only at h2 ⊢
    omega

theorem grip_self (f : Fin NFILE) : grip f (some f) = 1 := if_pos rfl

theorem grip_some (f g : Fin NFILE) (e : List (Fin NFILE)) :
    grip g (some f) + e.count g = (f :: e).count g := by
  rw [grip, List.count_cons]
  simp only [Option.some.injEq, beq_iff_eq]
  omega

theorem Good.drop (h : Good first e w) (ho : (w.proc p).ofile fd = some f) :
    Good first (f :: e) (w.withOfile p fd none) := by
  refine h.withOfile (fun hc => absurd rfl hc) fun g => ?_
  have h1 := grip_some f g e
  have h2 : grip g none = 0 := if_neg (by simp)
  rw [ho]
  omega

theorem Good.install (h : Good first (f :: e) w) (hst : (w.proc p).state = .live)
    (ho : (w.proc p).ofile fd = none) : Good first e (w.withOfile p fd (some f)) := by
  refine h.withOfile (fun _ => hst) fun g => ?_
  have h1 := grip_some f g e
  have h2 : grip g none = 0 := if_neg (by simp)
  rw [ho]
  omega

theorem le_refs (ho : (w.proc p).ofile fd = some f) : 1 ≤ w.refs f := by
  have h1 := le_sum_univ (fun fd => grip f ((w.proc p).ofile fd)) fd
  have h2 := le_sum_univ (fun q => (w.proc q).grips f) p
  simp only [ho, grip_self] at h1
  rw [World.refs]
  simp only [Slot.grips] at h2 ⊢
  omega

theorem pipealloc_returns (h : Good first e w) :
    Returns pipealloc w fun r w' =>
      w'.proc = w.proc ∧
        (r = none ∧ Good first e w' ∨ ∃ f g, r = some (f, g) ∧ Good first (f :: g :: e) w') := by
  refine Returns.bind (filealloc_returns h) ?_
  rintro r₀ w₀ ⟨hp₀, hr₀⟩
  rcases hr₀ with ⟨rfl, h₀⟩ | ⟨f, rfl, -, hf, hk₀, h₀⟩
  · exact Returns.pure ⟨hp₀, .inl ⟨rfl, h₀⟩⟩
  refine Returns.bind (filealloc_returns h₀) ?_
  rintro r₁ w₁ ⟨hp₁, hr₁⟩
  rcases hr₁ with ⟨rfl, h₁⟩ | ⟨g, rfl, hne, hg, hk₁, h₁⟩
  · refine Returns.bind (fileclose_returns h₁) ?_
    rintro - w₂ ⟨h₂, hp₂⟩
    exact Returns.pure ⟨hp₂.trans (hp₁.trans hp₀), .inl ⟨rfl, h₂⟩⟩
  have h₁' : Good first (f :: g :: e) w₁ := h₁.perm (.swap f g e)
  refine Returns.bind (onMem_returns (kalloc_returns w₁.mem)
    (Q := fun r w => ∃ m, w = { w₁ with mem := m } ∧ Same w₁.mem m ∧
      ∀ x, w₁.mem.free x = m.free x + r.elim 0 fun p => hit p x) ?_) ?_
  · rintro r m ⟨hs, hf, -⟩
    exact ⟨m, rfl, hs, hf⟩
  rintro (- | pi) w₂ ⟨m, rfl, hs, hm⟩
  · have h₂ : Good first (f :: g :: e) { w₁ with mem := m } := h₁'.withMem hs fun x => (hm x).symm
    refine Returns.bind (fileclose_returns h₂) ?_
    rintro - w₃ ⟨h₃, hp₃⟩
    refine Returns.bind (fileclose_returns h₃) ?_
    rintro - w₄ ⟨h₄, hp₄⟩
    exact Returns.pure ⟨hp₄.trans (hp₃.trans (hp₁.trans hp₀)), .inl ⟨rfl, h₄⟩⟩
  · have hfg : f ≠ g := fun hc => hne (by simp [hc])
    have hf₁ : (w₁.file f).pipe = none := by rw [hk₁, hk₀, hf]
    have hg₁ : (w₁.file g).pipe = none := by rw [hk₁, hg]
    have href : ∀ k ∈ f :: g :: e, (w₁.file k).ref ≠ 0 := by
      intro k hk
      have h1 := h₁'.ref k
      have h2 := List.count_pos_iff.mpr hk
      omega
    have h₂ := h₁'.newPipe hs hm hfg hf₁ hg₁ (href f (by simp)) (href g (by simp)) rfl rfl
    exact Returns.of_eq rfl ⟨hp₁.trans hp₀, .inr ⟨f, g, rfl, h₂⟩⟩

theorem withOfile_proc (w : World) (p : Fin NPROC) (fd : Fin NOFILE) (v : Option (Fin NFILE)) :
    (w.withOfile p fd v).proc p =
      { w.proc p with ofile := update (w.proc p).ofile fd v } :=
  update_self ..

theorem fdalloc_returns (h : Good first (f :: e) w) (hst : (w.proc p).state = .live) :
    Returns (fdalloc p f) w fun r w' =>
      r = none ∧ w' = w ∨ ∃ fd, r = some fd ∧ w' = w.withOfile p fd (some f) ∧
        (w.proc p).ofile fd = none ∧ Good first e w' := by
  refine Returns.bind_ok rfl ?_
  split
  next => exact Returns.pure (.inl ⟨rfl, rfl⟩)
  next fd hfd =>
    have ho : (w.proc p).ofile fd = none := by simpa using List.find?_some hfd
    refine Returns.bind_ok (setOfile_eq w p fd (some f)) ?_
    exact Returns.pure (.inr ⟨fd, rfl, rfl, ho, h.install hst ho⟩)

/-- Both ends of a new pipe are closed again. -/
theorem closeBoth_returns {g : Fin NFILE} (h : Good first (f :: g :: e) w) :
    Returns (fileclose f >>= fun _ => fileclose g) w fun _ w' => Good first e w' := by
  refine Returns.bind (fileclose_returns h) ?_
  rintro - w₁ ⟨h₁, -⟩
  exact (fileclose_returns h₁).mono fun _ _ h => h.1

theorem sysPipe_returns (h : Good first [] w) (hst : (w.proc p).state = .live) (copyout : Bool) :
    Returns (sysPipe p copyout) w fun _ w' => Good first [] w' := by
  refine Returns.bind (pipealloc_returns h) ?_
  rintro r w₁ ⟨hp₁, hr⟩
  rcases hr with ⟨rfl, h₁⟩ | ⟨rf, wf, rfl, h₁⟩
  · exact Returns.pure h₁
  have hst₁ : (w₁.proc p).state = .live := by rw [hp₁, hst]
  refine Returns.bind (fdalloc_returns h₁ hst₁) ?_
  rintro r w₂ hr
  rcases hr with ⟨rfl, rfl⟩ | ⟨fd0, rfl, rfl, ho₀, h₂⟩
  · exact closeBoth_returns h₁
  have hst₂ : ((w₁.withOfile p fd0 (some rf)).proc p).state = .live := by
    rw [withOfile_proc]
    exact hst₁
  have hfd₂ : ((w₁.withOfile p fd0 (some rf)).proc p).ofile fd0 = some rf := by
    rw [withOfile_proc]
    exact update_self ..
  refine Returns.bind (fdalloc_returns h₂ hst₂) ?_
  rintro r w₃ hr
  rcases hr with ⟨rfl, rfl⟩ | ⟨fd1, rfl, rfl, ho₁, h₃⟩
  · refine Returns.bind_ok (setOfile_eq _ p fd0 none) ?_
    exact closeBoth_returns (h₂.drop hfd₂)
  cases copyout with
  | true => exact Returns.pure h₃
  | false =>
    have hne : fd0 ≠ fd1 := by
      intro hc
      rw [← hc, hfd₂] at ho₁
      cases ho₁
    have hfd₃ : (((w₁.withOfile p fd0 (some rf)).withOfile p fd1 (some wf)).proc p).ofile fd0 =
        some rf := by
      rw [withOfile_proc]
      exact (update_of_ne hne ..).trans hfd₂
    have h₄ := h₃.drop hfd₃
    refine Returns.bind_ok (setOfile_eq _ p fd0 none) ?_
    refine Returns.bind_ok (setOfile_eq _ p fd1 none) ?_
    refine closeBoth_returns ((h₄.drop ?_).perm (.swap rf wf []))
    rw [withOfile_proc, withOfile_proc]
    exact (update_of_ne hne.symm ..).trans (update_self ..)

/-- Only the open files of one process change. -/
def Refiled (w w' : World) (p : Fin NPROC) (v : Fin NOFILE → Option (Fin NFILE)) : Prop :=
  w'.proc = update w.proc p { w.proc p with ofile := v }

theorem sysClose_returns (h : Good first e w) (p : Fin NPROC) (fd : Fin NOFILE) :
    Returns (sysClose p fd) w fun _ w' =>
      Good first e w' ∧ Refiled w w' p (update (w.proc p).ofile fd none) := by
  refine Returns.bind_ok rfl ?_
  cases ho : (w.proc p).ofile fd with
  | none =>
    refine Returns.pure ⟨h, ?_⟩
    rw [Refiled, ← ho, update_eq_self, update_eq_self]
  | some f =>
    refine Returns.bind_ok (setOfile_eq w p fd none) ?_
    refine (fileclose_returns (h.drop ho)).mono ?_
    rintro - w' ⟨h', hp⟩
    exact ⟨h', hp⟩

theorem closeFiles_returns (p : Fin NPROC) (fds : List (Fin NOFILE)) :
    ∀ w, Good first e w → Returns (closeFiles p fds) w fun _ w' =>
      Good first e w' ∧ ∃ v, Refiled w w' p v ∧
        ∀ fd, v fd = if fd ∈ fds then none else (w.proc p).ofile fd := by
  induction fds with
  | nil =>
    intro w h
    refine Returns.pure ⟨h, (w.proc p).ofile, ?_, fun fd => by simp⟩
    rw [Refiled, update_eq_self]
  | cons fd fds ih =>
    intro w h
    refine Returns.bind (sysClose_returns h p fd) ?_
    rintro - w₁ ⟨h₁, hp₁⟩
    refine (ih w₁ h₁).mono ?_
    rintro - w₂ ⟨h₂, v, hp₂, hv⟩
    have hslot : w₁.proc p =
        { w.proc p with ofile := update (w.proc p).ofile fd none } := by
      rw [hp₁, update_self]
    refine ⟨h₂, v, ?_, fun fd' => ?_⟩
    · rw [Refiled, hp₂, hslot, hp₁, update_idem]
    · rw [hv fd', hslot]
      by_cases hfd : fd' = fd
      · simp [hfd]
      · simp [hfd]

theorem dupFiles_returns {np : Fin NPROC} (fds : List (Fin NOFILE)) :
    ∀ w, fds.Nodup → Good first e w → (w.proc np).state = .live →
      (∀ fd ∈ fds, (w.proc np).ofile fd = none) →
      Returns (dupFiles p np fds) w fun _ w' => Good first e w' := by
  induction fds with
  | nil =>
    intro w _ h _ _
    exact Returns.pure h
  | cons fd fds ih =>
    intro w hnd h hst hnone
    obtain ⟨hfd, hnd⟩ := List.nodup_cons.mp hnd
    refine Returns.bind_ok rfl ?_
    cases ho : (w.proc p).ofile fd with
    | none => exact ih w hnd h hst fun fd' hfd' => hnone fd' (List.mem_cons_of_mem _ hfd')
    | some f =>
      have href : 1 ≤ (w.file f).ref := by
        have h1 := le_refs ho
        have h2 := h.ref f
        omega
      refine Returns.bind (filedup_returns h href) ?_
      rintro - w₁ ⟨h₁, hp₁⟩
      have hst₁ : (w₁.proc np).state = .live := by rw [hp₁, hst]
      have ho₁ : (w₁.proc np).ofile fd = none := by
        rw [hp₁]
        exact hnone fd List.mem_cons_self
      refine Returns.bind_ok (setOfile_eq w₁ np fd (some f)) ?_
      refine ih _ hnd (h₁.install hst₁ ho₁) ?_ fun fd' hfd' => ?_
      · rw [withOfile_proc]
        exact hst₁
      · have hc : fd' ≠ fd := fun hc => hfd (hc ▸ hfd')
        rw [withOfile_proc]
        refine (update_of_ne hc ..).trans ?_
        rw [hp₁]
        exact hnone fd' (List.mem_cons_of_mem _ hfd')

theorem Good.room (h : Good first e w) (p : Fin NPROC) : Room w.mem (w.proc p) := by
  intro x
  have h1 := h.whole x
  have h2 := le_sum_univ (fun q => (w.proc q).pages x) p
  rw [World.places] at h1
  omega

theorem Good.free_le (h : Good first e w) (x : Page) : w.mem.free x ≤ w.mem.frame x := by
  have h1 := h.whole x
  rw [World.places] at h1
  omega

theorem Good.live (h : Good first e w) (hst : (w.proc p).state ≠ .unused) :
    ∃ tf pt, Live w.mem.trampoline (w.proc p) tf pt := by
  rcases h.slots p with hu | hl
  · exact absurd hu.state hst
  · exact hl

theorem Good.unused (h : Good first e w) (hst : (w.proc p).state = .unused) : Unused (w.proc p) := by
  rcases h.slots p with hu | ⟨tf, pt, hl⟩
  · exact hu
  · exact absurd hst hl.used

theorem Good.putBack {m : Mem} {s : Slot} (h : Good first e w) (hm : Moved w.mem (w.proc p) m s)
    (hok : Sound w.mem.trampoline s) (hcl : s.state ≠ .live → ∀ fd, (w.proc p).ofile fd = none) :
    Good first e { w with mem := m, proc := update w.proc p s } := by
  refine h.replace hm.same hm.count hok ?_ fun f => by rw [grips_congr hm.ofile]
  rw [hm.ofile]
  exact hcl

theorem onSlot_returns {k : Slot → Kernel Slot} (tf : Page) (h : Good first [] w)
    (hk : Returns (k (w.proc p)) w.mem (Steps w.mem.trampoline tf w.mem (w.proc p))) :
    Returns (onSlot p k) w fun _ w' => Good first [] w' := by
  refine Returns.bind_ok rfl ?_
  refine Returns.bind (onMem_returns hk (Q := fun s w' =>
    Good first [] { w' with proc := update w'.proc p s }) ?_) ?_
  · rintro s m ⟨hm, hst, pt, hl⟩
    refine h.putBack hm (.inr ⟨tf, pt, hl⟩) ?_
    rw [hst]
    exact h.closed p
  · intro s w' h'
    exact Returns.of_eq rfl h'

theorem fork_returns (h : Good first [] w) (hst : (w.proc p).state = .live) :
    Returns (fork p) w fun _ w' => Good first [] w' := by
  obtain ⟨ptf, old, hl⟩ := h.live (by rw [hst]; simp)
  refine Returns.bind_ok rfl ?_
  split
  next => exact Returns.pure h
  next np hnp =>
    have hu : Unused (w.proc np) := h.unused (by simpa using List.find?_some hnp)
    have hof : ∀ fd, (w.proc np).ofile fd = none := h.closed np (by rw [hu.state]; simp)
    refine Returns.bind (onMem_returns (forkSlot_returns hl.toBuilt hu rfl h.free_le)
      (Q := fun r w' => ∃ m, w' = { w with mem := m } ∧ Moved w.mem (w.proc np) m r.1 ∧
        (r.2 = false ∧ Unused r.1 ∨
          r.2 = true ∧ r.1.exec = none ∧ ∃ tf pt, Built w.mem.trampoline r.1 tf pt)) ?_) ?_
    · rintro r m ⟨hm, hr⟩
      exact ⟨m, rfl, hm, hr⟩
    rintro ⟨s, r⟩ w₁ ⟨m, rfl, hm, hr⟩
    rcases hr with ⟨rfl, hs⟩ | ⟨rfl, hex, tf, pt, hb⟩
    · refine Returns.of_eq rfl ?_
      exact h.putBack hm (.inl hs) fun _ => hof
    have hlive : Live w.mem.trampoline { s with state := .live, parent := some p } tf pt := by
      refine ⟨⟨hb.trapframe, hb.pagetable, hb.spans, hb.kernel⟩, by simp, ?_, fun _ => hex⟩
      intro img pt' sz hx
      rw [hex] at hx
      cases hx
    have hm' : Moved w.mem (w.proc np) m { s with state := .live, parent := some p } :=
      ⟨hm.same, hm.ofile, hm.count⟩
    have h₁ := h.putBack hm' (.inr ⟨tf, pt, hlive⟩) fun _ => hof
    refine Returns.bind_ok rfl ?_
    refine dupFiles_returns _ _ (List.nodup_finRange _) h₁ ?_ fun fd _ => ?_
    · simp only [update_self]
    · simp only [update_self]
      exact (congrFun hm.ofile fd).trans (hof fd)

theorem wait_returns (h : Good first [] w) (p : Fin NPROC) (copyout : Bool) :
    Returns (wait p copyout) w fun _ w' => Good first [] w' := by
  refine Returns.bind_ok rfl ?_
  split
  next => exact Returns.pure h
  next c hc =>
    have hz : (w.proc c).state = .zombie := by
      have := List.find?_some hc
      simp only [decide_eq_true_eq] at this
      exact this.2
    obtain ⟨tf, pt, hl⟩ := h.live (by rw [hz]; simp)
    cases copyout with
    | false => exact Returns.pure h
    | true =>
      refine Returns.bind (onMem_returns (freeproc_returns hl.toBuilt (hl.zombie hz) (h.room c))
        (Q := fun s w' => Good first [] { w' with proc := update w'.proc c s }) ?_) ?_
      · rintro s m ⟨hu, hm⟩
        exact h.putBack hm (.inl hu) fun _ => h.closed c (by rw [hz]; simp)
      · intro s w' h'
        exact Returns.of_eq rfl h'

section Adopt

variable {s : Slot} {q r : Fin NPROC}

theorem adopt_cases (s : Slot) (q r : Fin NPROC) :
    ∃ v, s.adopt q r = { s with parent := v } := by
  rw [Slot.adopt]
  split
  · exact ⟨some r, rfl⟩
  · exact ⟨s.parent, rfl⟩

theorem adopt_pages (x : Page) : (s.adopt q r).pages x = s.pages x := by
  obtain ⟨v, hv⟩ := adopt_cases s q r
  rw [hv]
  rfl

theorem adopt_ofile : (s.adopt q r).ofile = s.ofile := by
  obtain ⟨v, hv⟩ := adopt_cases s q r
  rw [hv]

theorem adopt_state : (s.adopt q r).state = s.state := by
  obtain ⟨v, hv⟩ := adopt_cases s q r
  rw [hv]

theorem adopt_exec : (s.adopt q r).exec = s.exec := by
  obtain ⟨v, hv⟩ := adopt_cases s q r
  rw [hv]

theorem Sound.adopt {tramp : Page} (h : Sound tramp s) : Sound tramp (s.adopt q r) := by
  obtain ⟨v, hv⟩ := adopt_cases s q r
  rw [hv]
  rcases h with hu | ⟨tf, pt, hl⟩
  · exact .inl ⟨hu.state, hu.trapframe, hu.pagetable, hu.sz, hu.exec⟩
  · exact .inr ⟨tf, pt, ⟨hl.trapframe, hl.pagetable, hl.spans, hl.kernel⟩, hl.used, hl.loading,
      hl.zombie⟩

end Adopt

theorem Good.adopt (h : Good first e w) (q r : Fin NPROC) :
    Good first e { w with proc := fun pp => (w.proc pp).adopt q r } :=
  { h with
    whole := fun x => by
      have h1 := h.whole x
      rw [World.places] at h1 ⊢
      simp only [adopt_pages]
      exact h1
    slots := fun p => (h.slots p).adopt
    closed := fun p hst => by
      simp only [adopt_state] at hst
      simp only [adopt_ofile]
      exact h.closed p hst
    ref := fun f => by
      have h1 := h.ref f
      rw [World.refs] at h1 ⊢
      simp only [Slot.grips, adopt_ofile]
      exact h1 }

theorem exit_returns (h : Good first [] w) (hst : (w.proc p).state = .live)
    (hex : (w.proc p).exec = none) : Returns (exit p) w fun _ w' => Good first [] w' := by
  refine Returns.bind (closeFiles_returns p (List.finRange NOFILE) w h) ?_
  rintro - w₁ ⟨h₁, v, hp₁, hv⟩
  have hslot : w₁.proc p = { w.proc p with ofile := v } := by rw [hp₁, update_self]
  refine Returns.bind_ok rfl ?_
  have h₂ := h₁.adopt p 0
  refine Returns.bind_ok rfl ?_
  refine Returns.of_eq rfl ?_
  obtain ⟨tf, pt, hl⟩ := h₂.live (p := p) (by
    simp only [adopt_state, hslot, hst]
    simp)
  have hex₂ : ((w₁.proc p).adopt p 0).exec = none := by rw [adopt_exec, hslot, hex]
  have hz : Live w₁.mem.trampoline { (w₁.proc p).adopt p 0 with state := .zombie } tf pt :=
    ⟨⟨hl.trapframe, hl.pagetable, hl.spans, hl.kernel⟩, by simp, hl.loading, fun _ => hex₂⟩
  refine h₂.putBack ⟨.refl w₁.mem, rfl, fun x => rfl⟩ (.inr ⟨tf, pt, hz⟩) fun _ fd => ?_
  simp only [adopt_ofile, hslot, hv fd, List.mem_finRange, if_true]

/-- userinit, when the seven pages it needs are free. -/
theorem userinit_returns (h : Good first [] w) (hst : (w.proc 0).state = .unused) (ha : Ample 7 w.mem) :
    Returns userinit w fun _ w' => Good first [] w' := by
  have hu := h.unused hst
  have hof : ∀ fd, (w.proc 0).ofile fd = none := h.closed 0 (by rw [hst]; simp)
  refine Returns.bind_ok rfl ?_
  refine Returns.bind (onMem_returns (allocproc_returns hu h.free_le)
    (Q := fun r w' => ∃ m, w' = { w with mem := m } ∧ Ample 3 m ∧ r.2 = true ∧
      Moved w.mem (w.proc 0) m r.1 ∧ r.1.sz = 0 ∧ r.1.exec = none ∧
      ∃ tf pt, r.1.trapframe = some tf ∧ r.1.pagetable = some pt ∧
        Blank w.mem.trampoline tf pt) ?_) ?_
  · rintro r m ⟨hm, hr, hn⟩
    obtain ⟨ht, ha'⟩ := hn 3 ha
    rcases hr with ⟨hf, -⟩ | ⟨-, -, hsz, hex, htf⟩
    · rw [ht] at hf
      cases hf
    · exact ⟨m, rfl, ha', ht, hm, hsz, hex, htf⟩
  rintro ⟨s, r⟩ w₁ ⟨m, rfl, ha', hr, hm, hsz, hex, tf, pt, htf, hpt, hblank⟩
  subst hr
  have hpt : s.pagetable = some pt := hpt
  have hb : Built w.mem.trampoline s tf pt := hblank.built htf hpt hsz
  have hw : Within m pt := hb.within ((h.room 0).moved hm)
  simp only [hpt]
  refine Returns.bind (onMem_returns (uvmfirst_returns hblank hw ha')
    (Q := fun pt' w' => ∃ m', w' = { w with mem := m' } ∧ Edited m pt m' pt' ∧ Spans pt' 1) ?_) ?_
  · rintro pt' m' ⟨he, hsp⟩
    exact ⟨m', rfl, he, hsp⟩
  rintro pt' w₂ ⟨m', rfl, he, hsp⟩
  have hone : Memory.pages PGSIZE = 1 := by decide
  have hb' : Built w.mem.trampoline { s with state := .live, pagetable := some pt', sz := PGSIZE }
      tf pt' := ⟨htf, rfl, hone ▸ hsp, hb.kernel.edited he⟩
  have hm' := hm.trans (hb.moved hb' he rfl rfl)
  refine Returns.of_eq rfl (h.putBack hm' (.inr ⟨tf, pt', hb', by simp, ?_, fun _ => hex⟩) fun _ => hof)
  intro img pt₂ sz hx
  rw [hex] at hx
  cases hx

theorem Slot.idle_iff {s : Slot} : s.idle = true ↔ s.state = .live ∧ s.exec = none := by
  simp [Slot.idle]

theorem run_returns (h : Good first [] w) {c : Call} (hen : w.enabled c = true)
    (hu : c = .userinit → Ample 7 w.mem) : Returns c.run w fun _ w' => Good first [] w' := by
  have hlive : ∀ p, (w.proc p).state = .live →
      ∃ tf pt, Live w.mem.trampoline (w.proc p) tf pt :=
    fun p hst => h.live (by rw [hst]; simp)
  cases c with
  | userinit =>
    have hst : ∀ p, (w.proc p).state = .unused := by simpa [World.enabled] using hen
    exact userinit_returns h (hst 0) (hu rfl)
  | fork p => exact fork_returns h (Slot.idle_iff.mp hen).1
  | sbrk p n =>
    obtain ⟨tf, pt, hl⟩ := hlive p (Slot.idle_iff.mp hen).1
    rw [Call.run]
    exact onSlot_returns tf h (growproc_returns hl (h.room p) n)
  | pipe p copyout => exact sysPipe_returns h (Slot.idle_iff.mp hen).1 copyout
  | close p fd => exact (sysClose_returns h p fd).mono fun _ _ h => h.1
  | exit p =>
    have hen : (w.proc p).idle = true ∧ p ≠ 0 := by simpa [World.enabled] using hen
    obtain ⟨hst, hex⟩ := Slot.idle_iff.mp hen.1
    exact exit_returns h hst hex
  | wait p copyout => exact wait_returns h p copyout
  | execArg p fetchaddr fetchstr =>
    have hen : (w.proc p).state = .live ∧ (w.proc p).args.isSome := by
      simpa [World.enabled] using hen
    obtain ⟨tf, pt, hl⟩ := hlive p hen.1
    obtain ⟨argv, ha⟩ := Option.isSome_iff_exists.mp hen.2
    rw [Call.run]
    refine onSlot_returns tf h ?_
    simp only [ha]
    exact execArg_returns hl hen.1 (h.room p) ha fetchaddr fetchstr
  | execBegin p found =>
    have hen : (w.proc p).state = .live ∧ (w.proc p).args.isSome := by
      simpa [World.enabled] using hen
    obtain ⟨tf, pt, hl⟩ := hlive p hen.1
    obtain ⟨argv, ha⟩ := Option.isSome_iff_exists.mp hen.2
    rw [Call.run]
    refine onSlot_returns tf h ?_
    simp only [ha]
    exact execBegin_returns hl hen.1 (h.room p) rfl ha found
  | execSegment p ph read =>
    have hen : (w.proc p).state = .live ∧ (w.proc p).loading.isSome := by
      simpa [World.enabled] using hen
    obtain ⟨tf, pt, hl⟩ := hlive p hen.1
    obtain ⟨⟨argv, pt', sz⟩, ha⟩ := Option.isSome_iff_exists.mp hen.2
    rw [Call.run]
    refine onSlot_returns tf h ?_
    simp only [ha]
    exact execSegment_returns hl hen.1 (h.room p) ha ph read
  | execCommit p pushed =>
    have hen : (w.proc p).state = .live ∧ (w.proc p).loading.isSome := by
      simpa [World.enabled] using hen
    obtain ⟨tf, pt, hl⟩ := hlive p hen.1
    obtain ⟨⟨argv, pt', sz⟩, ha⟩ := Option.isSome_iff_exists.mp hen.2
    rw [Call.run]
    refine onSlot_returns tf h ?_
    simp only [ha]
    exact execCommit_returns hl (h.room p) ha pushed

structure Inv (first : Page) (w : World) : Prop where
  good : Good first [] w
  running : w.panicked = none

/-- userinit runs at boot, when no allocation fails. -/
def Booting (w : World) (l : Label) : Prop :=
  l.call = .userinit → (∀ b ∈ l.deny, b = false) ∧ 7 ≤ w.mem.freelist.length

theorem inv_next {l : Label} (h : Inv first w) (hl : Booting w l) (hn : next w l = some w') :
    Inv first w' := by
  rw [next] at hn
  split at hn
  · cases hn
  next hg =>
    have hen : w.enabled l.call = true := by
      cases hc : w.enabled l.call with
      | true => rfl
      | false => exact absurd (.inr hc) hg
    have h₁ : Good first [] { w with mem := { w.mem with deny := l.deny } } :=
      h.good.withMem ⟨rfl, rfl⟩ fun x => rfl
    obtain ⟨u, w₂, hrun, h₂⟩ := run_returns h₁ (by
      rw [← hen]
      cases l.call <;> rfl) fun hc => ⟨(hl hc).1, (hl hc).2⟩
    rw [hrun] at hn
    cases hn
    exact ⟨{ h₂ with }, rfl⟩

end Xv6.Memory
