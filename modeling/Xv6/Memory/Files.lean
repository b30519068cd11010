import Xv6.Memory.World
import Xv6.Memory.Slots

open Xv6.Framework

namespace Xv6.Memory

def Pipe.isOpen (p : Pipe) (writable : Bool) : Bool := if writable then p.writeopen else p.readopen

theorem Pipe.close_self (p : Pipe) (b : Bool) : (p.close b).isOpen b = false := by
  cases b <;> rfl

theorem Pipe.close_ne (p : Pipe) {b b' : Bool} (h : b' ≠ b) :
    (p.close b).isOpen b' = p.isOpen b' := by
  cases b <;> cases b' <;> first | rfl | exact absurd rfl h

theorem Pipe.both_closed {p : Pipe} {b : Bool} (h : p.isOpen b = false)
    (h' : p.isOpen (!b) = false) : p.readopen = false ∧ p.writeopen = false := by
  cases b with
  | false => exact ⟨h, h'⟩
  | true => exact ⟨h', h⟩

/-- A page is a pipe's as long as a file structure of type FD_PIPE points to it. -/
def World.piped (w : World) (x : Page) : Nat :=
  if ∃ f b, (w.file f).pipe = some (x, b) then 1 else 0

/-- In how many places a page is: on the free list, among the pages taken at boot, held by a
process, or a pipe. -/
def World.places (w : World) (x : Page) : Nat :=
  w.mem.free x + w.kernel.count x + ∑ p, (w.proc p).pages x + w.piped x

def grip (f : Fin NFILE) (v : Option (Fin NFILE)) : Nat := if v = some f then 1 else 0

def Slot.grips (s : Slot) (f : Fin NFILE) : Nat := ∑ fd, grip f (s.ofile fd)

def World.refs (w : World) (f : Fin NFILE) : Nat := ∑ p, (w.proc p).grips f

/-- The invariant of the calls, with `e` the references that the running call holds in local
variables. -/
structure Good (first : Page) (e : List (Fin NFILE)) (w : World) : Prop where
  first : w.mem.first = first
  whole : ∀ x, w.places x = w.mem.frame x
  slots : ∀ p, Sound w.mem.trampoline (w.proc p)
  closed : ∀ p, (w.proc p).state ≠ .live → ∀ fd, (w.proc p).ofile fd = none
  ref : ∀ f, (w.file f).ref = w.refs f + e.count f
  free : ∀ f, (w.file f).ref = 0 → (w.file f).pipe = none
  opened : ∀ f x b, (w.file f).pipe = some (x, b) → (w.pipe x).isOpen b = true
  unique : ∀ f g x b, (w.file f).pipe = some (x, b) → (w.file g).pipe = some (x, b) → f = g
  backed : ∀ f x b b', (w.file f).pipe = some (x, b) → (w.pipe x).isOpen b' = true →
    ∃ g, (w.file g).pipe = some (x, b')

variable {first : Page} {e e' : List (Fin NFILE)} {w w' : World} {f g : Fin NFILE}

theorem onMem_returns {α : Type} {k : Kernel α} {P : α → Mem → Prop} {Q : α → World → Prop}
    (hk : Returns k w.mem P) (h : ∀ a m, P a m → Q a { w with mem := m }) :
    Returns (onMem k) w Q := by
  obtain ⟨a, m, hk, hp⟩ := hk
  refine ⟨a, { w with mem := m }, ?_, h a m hp⟩
  rw [onMem, hk]

theorem Good.perm (h : Good first e w) (hp : e.Perm e') : Good first e' w :=
  { h with ref := fun f => by rw [h.ref f, hp.count_eq] }

theorem World.piped_of {x : Page} {b : Bool} (h : (w.file f).pipe = some (x, b)) :
    w.piped x = 1 :=
  if_pos ⟨f, b, h⟩

/-- A step on the ends of one pipe: other pages and their ends stay. -/
theorem Good.atPipe (pi : Page) (h : Good first e w) (hs : Same w.mem w'.mem)
    (hkernel : w'.kernel = w.kernel) (hproc : w'.proc = w.proc)
    (hpage : w'.mem.free pi + w'.piped pi = w.mem.free pi + w.piped pi)
    (hkeep : ∀ x, x ≠ pi → w'.mem.free x = w.mem.free x ∧ w'.pipe x = w.pipe x)
    (hends : ∀ x, x ≠ pi → ∀ k b, (w'.file k).pipe = some (x, b) ↔ (w.file k).pipe = some (x, b))
    (href : ∀ k, (w'.file k).ref = w.refs k + e'.count k)
    (hfree : ∀ k, (w'.file k).ref = 0 → (w'.file k).pipe = none)
    (hopened : ∀ k b, (w'.file k).pipe = some (pi, b) → (w'.pipe pi).isOpen b = true)
    (hunique : ∀ k l b, (w'.file k).pipe = some (pi, b) → (w'.file l).pipe = some (pi, b) → k = l)
    (hbacked : ∀ k b b', (w'.file k).pipe = some (pi, b) → (w'.pipe pi).isOpen b' = true →
      ∃ l, (w'.file l).pipe = some (pi, b')) : Good first e' w' where
  first := hs.first.trans h.first
  whole x := by
    have h1 := h.whole x
    rw [World.places] at h1 ⊢
    rw [hs.frame, hkernel, hproc]
    by_cases hx : x = pi
    · rw [hx] at h1 ⊢
      omega
    · have hpiped : w'.piped x = w.piped x := by simp only [World.piped, hends x hx]
      rw [(hkeep x hx).1, hpiped, h1]
  slots := by
    rw [hs.trampoline, hproc]
    exact h.slots
  closed := by
    rw [hproc]
    exact h.closed
  ref k := by rw [href k, World.refs, World.refs, hproc]
  free := hfree
  opened k x b hk := by
    by_cases hx : x = pi
    · rw [hx] at hk ⊢
      exact hopened k b hk
    · rw [(hkeep x hx).2]
      exact h.opened k x b ((hends x hx k b).mp hk)
  unique k l x b hk hl := by
    by_cases hx : x = pi
    · rw [hx] at hk hl
      exact hunique k l b hk hl
    · exact h.unique k l x b ((hends x hx k b).mp hk) ((hends x hx l b).mp hl)
  backed k x b b' hk ho := by
    by_cases hx : x = pi
    · rw [hx] at hk ho ⊢
      exact hbacked k b b' hk ho
    · rw [(hkeep x hx).2] at ho
      obtain ⟨l, hl⟩ := h.backed k x b b' ((hends x hx k b).mp hk) ho
      exact ⟨l, (hends x hx l b').mpr hl⟩

theorem pipe_setRef (w : World) (f g : Fin NFILE) (n : Nat) :
    (update w.file f { w.file f with ref := n } g).pipe = (w.file g).pipe := by
  by_cases hg : g = f
  · rw [hg, update_self]
  · rw [update_of_ne hg]

theorem Good.setRef {n : Nat} (h : Good first e w) (hn : n = w.refs f + e'.count f)
    (hne : ∀ g, g ≠ f → e'.count g = e.count g) (h0 : n = 0 → (w.file f).pipe = none) :
    Good first e' { w with file := update w.file f { w.file f with ref := n } } := by
  refine h.atPipe 0 (.refl _) rfl rfl ?_ (fun _ _ => ⟨rfl, rfl⟩) ?_ ?_ ?_ ?_ ?_ ?_
  all_goals simp only [World.piped, pipe_setRef]
  · exact fun _ _ _ _ => trivial
  · intro g
    by_cases hg : g = f
    · rw [hg, update_self]
      exact hn
    · rw [update_of_ne hg, hne g hg]
      exact h.ref g
  · intro g hz
    by_cases hg : g = f
    · rw [hg, update_self] at hz
      rw [hg]
      exact h0 hz
    · rw [update_of_ne hg] at hz
      exact h.free g hz
  · exact fun k b => h.opened k 0 b
  · exact fun k l b => h.unique k l 0 b
  · exact fun k b b' => h.backed k 0 b b'

theorem count_cons_ne (e : List (Fin NFILE)) (h : g ≠ f) : (f :: e).count g = e.count g :=
  List.count_cons_of_ne (Ne.symm h)

theorem filedup_returns (h : Good first e w) (hf : 1 ≤ (w.file f).ref) :
    Returns (filedup f) w fun _ w' => Good first (f :: e) w' ∧ w'.proc = w.proc := by
  refine Returns.bind_ok rfl ?_
  rw [if_neg (by omega)]
  refine Returns.of_eq rfl ⟨h.setRef ?_ (fun g hg => count_cons_ne e hg) (by omega), rfl⟩
  rw [h.ref f, List.count_cons_self]
  omega

theorem filealloc_returns (h : Good first e w) :
    Returns filealloc w fun r w' =>
      w'.proc = w.proc ∧ (r = none ∧ Good first e w' ∨
        ∃ f, r = some f ∧ f ∉ e ∧ (w.file f).pipe = none ∧
          (∀ g, (w'.file g).pipe = (w.file g).pipe) ∧ Good first (f :: e) w') := by
  refine Returns.bind_ok rfl ?_
  split
  next => exact Returns.pure ⟨rfl, .inl ⟨rfl, h⟩⟩
  next f hf =>
    have hz : (w.file f).ref = 0 := by simpa using List.find?_some hf
    have hn := h.free f hz
    have hr := h.ref f
    have hnot : f ∉ e := by
      intro hc
      have := List.count_pos_iff.mpr hc
      omega
    refine Returns.bind_ok rfl (Returns.pure ⟨rfl, .inr ⟨f, rfl, hnot, hn, ?_, ?_⟩⟩)
    · exact fun g => pipe_setRef w f g 1
    · refine h.setRef ?_ (fun g hg => count_cons_ne e hg) (by omega)
      rw [List.count_cons_self]
      omega

/-- The last reference to one end of a pipe goes. `p` is the pipe with that end closed, and `m` the
memory, in which the page is free if the other end was closed already. -/
theorem Good.closeEnd {pi : Page} {b : Bool} {p : Pipe} {m : Mem} (h : Good first (f :: e) w)
    (hf : (w.file f).pipe = some (pi, b)) (hr : (w.file f).ref = 1) (hb : p.isOpen b = false)
    (hp : ∀ b', b' ≠ b → p.isOpen b' = (w.pipe pi).isOpen b') (hs : Same w.mem m)
    (hm : ∀ x, m.free x = w.mem.free x + if p.isOpen (!b) then 0 else hit pi x) :
    Good first e { w with
      mem := m
      file := update w.file f ⟨0, none⟩
      pipe := update w.pipe pi p } := by
  have hat : ∀ k x b', (update w.file f ⟨0, none⟩ k).pipe = some (x, b') ↔
      k ≠ f ∧ (w.file k).pipe = some (x, b') := by
    intro k x b'
    by_cases hk : k = f
    · simp [hk]
    · simp [hk]
  have hne : ∀ k b', k ≠ f → (w.file k).pipe = some (pi, b') → b' ≠ b :=
    fun k b' hk hkp hc => hk (h.unique k f pi b (hc ▸ hkp) hf)
  -- the other end is there as long as it is open
  have hback : ∀ b', p.isOpen b' = true → ∃ k, k ≠ f ∧ (w.file k).pipe = some (pi, b') := by
    intro b' ho
    have hbb : b' ≠ b := fun hc => by rw [hc, hb] at ho; cases ho
    rw [hp b' hbb] at ho
    obtain ⟨k, hk⟩ := h.backed f pi b b' hf ho
    refine ⟨k, fun hc => hbb ?_, hk⟩
    rw [hc, hf] at hk
    cases hk
    rfl
  refine h.atPipe pi hs rfl rfl ?_ (fun x hx => ⟨?_, update_of_ne hx _ _⟩) ?_ ?_ ?_ ?_ ?_ ?_
  all_goals simp only [World.piped, hat, update_self]
  · have hpiped : ∃ k b', (w.file k).pipe = some (pi, b') := ⟨f, b, hf⟩
    rw [hm, if_pos hpiped]
    by_cases ho : p.isOpen (!b) = true
    · obtain ⟨k, hk⟩ := hback (!b) ho
      rw [if_pos ho, if_pos ⟨k, _, hk⟩]
    · rw [if_neg ho, hit_self, if_neg]
      rintro ⟨k, b', hk, hkp⟩
      have hbb := hne k b' hk hkp
      have hopen := (hp b' hbb).trans (h.opened k pi b' hkp)
      rw [Bool.eq_not_of_ne hbb] at hopen
      exact ho hopen
  · rw [hm, hit, if_neg (Ne.symm hx)]
    split <;> rfl
  · intro x hx k b'
    refine and_iff_right_of_imp fun hk hc => hx ?_
    rw [hc, hf] at hk
    cases hk
    rfl
  · intro k
    have h1 := h.ref k
    by_cases hk : k = f
    · subst hk
      rw [List.count_cons_self] at h1
      rw [update_self]
      show 0 = _
      omega
    · rw [count_cons_ne e hk] at h1
      rw [update_of_ne hk]
      exact h1
  · intro k hz
    by_cases hk : k = f
    · rw [hk, update_self]
    · rw [update_of_ne hk] at hz ⊢
      exact h.free k hz
  · exact fun k b' hk => (hp b' (hne k b' hk.1 hk.2)).trans (h.opened k pi b' hk.2)
  · exact fun k l b' hk hl => h.unique k l pi b' hk.2 hl.2
  · exact fun k b₁ b₂ _ ho => hback b₂ ho

theorem fileclose_returns (h : Good first (f :: e) w) :
    Returns (fileclose f) w fun _ w' => Good first e w' ∧ w'.proc = w.proc := by
  have hr := h.ref f
  rw [List.count_cons_self] at hr
  refine Returns.bind_ok rfl ?_
  rw [if_neg (by omega)]
  by_cases h1 : (w.file f).ref - 1 > 0
  · rw [if_pos h1]
    refine Returns.of_eq rfl ⟨h.setRef ?_ (fun g hg => (count_cons_ne e hg).symm) (by omega), rfl⟩
    omega
  rw [if_neg h1]
  refine Returns.bind_ok rfl ?_
  cases hf : (w.file f).pipe with
  | none =>
    have he : (⟨0, none⟩ : File) = { w.file f with ref := 0 } := by simp only [hf]
    refine Returns.pure ⟨?_, rfl⟩
    show Good first e { w with file := update w.file f ⟨0, none⟩ }
    rw [he]
    exact h.setRef (by omega) (fun g hg => (count_cons_ne e hg).symm) fun _ => hf
  | some q =>
    obtain ⟨pi, b⟩ := q
    have hr1 : (w.file f).ref = 1 := by omega
    have hclose := fun m => h.closeEnd (m := m) hf hr1
      (Pipe.close_self _ b) fun b' hb => Pipe.close_ne _ hb
    refine Returns.bind_ok rfl ?_
    refine Returns.bind_ok rfl ?_
    by_cases hc : ((w.pipe pi).close b).readopen = false ∧ ((w.pipe pi).close b).writeopen = false
    · have hno : ¬((w.pipe pi).close b).isOpen (!b) = true := by
        rw [Pipe.isOpen]
        split <;> simp [hc.1, hc.2]
      have hframe : w.mem.frame pi = 1 := by
        have h2 := h.whole pi
        have h3 := w.mem.frame_le pi
        rw [World.places, World.piped_of hf] at h2
        omega
      rw [if_pos hc]
      refine onMem_returns (kfree_returns hframe) ?_
      rintro - m ⟨hs, hm⟩
      refine ⟨hclose m hs fun x => ?_, rfl⟩
      rw [if_neg hno]
      exact hm x
    · have hyes : ((w.pipe pi).close b).isOpen (!b) = true := by
        by_contra hno
        exact hc (Pipe.both_closed (Pipe.close_self _ b) (Bool.not_eq_true _ ▸ hno))
      rw [if_neg hc]
      refine Returns.pure ⟨hclose w.mem (.refl w.mem) fun x => ?_, rfl⟩
      rw [if_pos hyes, Nat.add_zero]

/-- A page from kalloc becomes a pipe between two file structures. -/
theorem Good.newPipe {pi : Page} {m : Mem} {r₀ r₁ : File} (h : Good first e w) (hs : Same w.mem m)
    (hm : ∀ x, w.mem.free x = m.free x + hit pi x) (hfg : f ≠ g)
    (hf : (w.file f).pipe = none) (hg : (w.file g).pipe = none)
    (hf0 : (w.file f).ref ≠ 0) (hg0 : (w.file g).ref ≠ 0)
    (h₀ : r₀ = { w.file f with pipe := some (pi, false) })
    (h₁ : r₁ = { w.file g with pipe := some (pi, true) }) :
    Good first e { w with
      mem := m
      pipe := update w.pipe pi ⟨true, true⟩
      file := update (update w.file f r₀) g r₁ } := by
  -- no file structure pointed to a page that was free
  have hfresh : ∀ k b, (w.file k).pipe ≠ some (pi, b) := by
    intro k b hk
    have h2 := h.whole pi
    have h3 := w.mem.frame_le pi
    have h4 := hm pi
    rw [World.places, World.piped_of hk] at h2
    rw [hit_self] at h4
    omega
  have hcases : ∀ k, (k = f ∧ update (update w.file f r₀) g r₁ k = r₀) ∨
      (k = g ∧ update (update w.file f r₀) g r₁ k = r₁) ∨
      (k ≠ f ∧ k ≠ g ∧ update (update w.file f r₀) g r₁ k = w.file k) := by
    intro k
    by_cases hk : k = g
    · exact .inr (.inl ⟨hk, by rw [hk, update_self]⟩)
    rw [update_of_ne hk]
    by_cases hk' : k = f
    · exact .inl ⟨hk', by rw [hk', update_self]⟩
    · exact .inr (.inr ⟨hk', hk, by rw [update_of_ne hk']⟩)
  have hrefs : ∀ k, (update (update w.file f r₀) g r₁ k).ref = (w.file k).ref := by
    intro k
    rcases hcases k with ⟨hk, hkk⟩ | ⟨hk, hkk⟩ | ⟨-, -, hkk⟩
    · rw [hkk, h₀, hk]
    · rw [hkk, h₁, hk]
    · rw [hkk]
  -- the ends of the new pipe
  have hat : ∀ k b, (update (update w.file f r₀) g r₁ k).pipe = some (pi, b) ↔
      k = if b then g else f := by
    intro k b
    rcases hcases k with ⟨rfl, hkk⟩ | ⟨rfl, hkk⟩ | ⟨hkf, hkg, hkk⟩
    · rw [hkk, h₀]
      cases b <;> simp [hfg]
    · rw [hkk, h₁]
      cases b <;> simp [hfg.symm]
    · rw [hkk]
      cases b <;> simp [hfresh, hkf, hkg]
  refine h.atPipe pi hs rfl rfl ?_ (fun x hx => ⟨?_, update_of_ne hx _ _⟩) ?_ ?_ ?_ ?_ ?_ ?_
  all_goals simp only [World.piped, hat, hrefs, update_self]
  · rw [hm, hit_self, if_pos ⟨f, false, rfl⟩, if_neg fun ⟨k, b, hk⟩ => hfresh k b hk]
  · rw [hm, hit, if_neg (Ne.symm hx), Nat.add_zero]
  · intro x hx k b
    rcases hcases k with ⟨rfl, hkk⟩ | ⟨rfl, hkk⟩ | ⟨-, -, hkk⟩
    · rw [hkk, h₀, hf]
      simp [Ne.symm hx]
    · rw [hkk, h₁, hg]
      simp [Ne.symm hx]
    · rw [hkk]
  · exact h.ref
  · intro k hz
    rcases hcases k with ⟨hk, -⟩ | ⟨hk, -⟩ | ⟨-, -, hkk⟩
    · exact absurd (hk ▸ hz) hf0
    · exact absurd (hk ▸ hz) hg0
    · rw [hkk]
      exact h.free k hz
  · exact fun k b _ => by cases b <;> rfl
  · exact fun k l b hk hl => hk.trans hl.symm
  · exact fun k b b' _ _ => ⟨_, rfl⟩

end Xv6.Memory
