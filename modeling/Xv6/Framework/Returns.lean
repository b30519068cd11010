import Mathlib.Algebra.BigOperators.Group.Finset.Piecewise
import Mathlib.Algebra.Order.BigOperators.Group.Finset

namespace Xv6.Framework

variable {σ ε α β : Type}

theorem run_bind {m : StateT σ (Except ε) α} {f : α → StateT σ (Except ε) β} {s t : σ} {a : α}
    (h : m s = .ok (a, t)) : (m >>= f) s = f a t := by
  show (m s).bind (fun r => f r.1 r.2) = f a t
  rw [h]
  rfl

/-- Total correctness for a program that threads a state and may stop with an error: from `s` it
returns, with a result and a state that satisfy `Q`. -/
def Returns (m : StateT σ (Except ε) α) (s : σ) (Q : α → σ → Prop) : Prop :=
  ∃ a t, m s = .ok (a, t) ∧ Q a t

namespace Returns

variable {m : StateT σ (Except ε) α} {f : α → StateT σ (Except ε) β} {s t : σ} {a : α}
  {P Q : α → σ → Prop} {R : β → σ → Prop}

theorem of_eq (h : m s = .ok (a, t)) (hq : Q a t) : Returns m s Q :=
  ⟨a, t, h, hq⟩

theorem pure (hq : Q a s) : Returns (ε := ε) (Pure.pure a) s Q :=
  ⟨a, s, rfl, hq⟩

theorem bind (hm : Returns m s P) (hf : ∀ a t, P a t → Returns (f a) t R) :
    Returns (m >>= f) s R := by
  obtain ⟨a, t, hm, hp⟩ := hm
  obtain ⟨b, u, hf, hr⟩ := hf a t hp
  exact ⟨b, u, (run_bind hm).trans hf, hr⟩

theorem bind_ok (hm : m s = .ok (a, t)) (hf : Returns (f a) t R) : Returns (m >>= f) s R :=
  bind (P := fun b u => b = a ∧ u = t) (of_eq hm ⟨rfl, rfl⟩) fun _ _ ⟨ha, ht⟩ => ha ▸ ht ▸ hf

theorem mono (hm : Returns m s P) (h : ∀ a t, P a t → Q a t) : Returns m s Q := by
  obtain ⟨a, t, hm, hp⟩ := hm
  exact ⟨a, t, hm, h a t hp⟩

end Returns

/-- A program on states follows one on their abstractions: whenever that one returns, it returns as
well, with related results in a state of the same abstraction. -/
def Refines {τ : Type} (abs : σ → τ) (m : StateT σ (Except ε) α) (n : StateT τ (Except ε) β) (s : σ)
    (R : α → β → σ → Prop) : Prop :=
  ∀ b u, n (abs s) = .ok (b, u) → ∃ a t, m s = .ok (a, t) ∧ abs t = u ∧ R a b t

namespace Refines

variable {τ α' β' : Type} {abs : σ → τ} {m : StateT σ (Except ε) α} {n : StateT τ (Except ε) β}
  {f : α → StateT σ (Except ε) α'} {g : β → StateT τ (Except ε) β'} {s t : σ} {a : α} {b : β}
  {R R' : α → β → σ → Prop} {S : α' → β' → σ → Prop} {Q : β → τ → Prop}

theorem pure (h : R a b s) :
    Refines (ε := ε) abs (Pure.pure a) (Pure.pure b : StateT τ (Except ε) β) s R := by
  intro b' u hb
  cases hb
  exact ⟨a, s, rfl, rfl, h⟩

theorem bind (hm : Refines abs m n s R) (hf : ∀ a b t, R a b t → Refines abs (f a) (g b) t S) :
    Refines abs (m >>= f) (n >>= g) s S := by
  intro b' u hb
  have hbind : (n (abs s)).bind (fun r => g r.1 r.2) = .ok (b', u) := hb
  cases hn : n (abs s) with
  | error e =>
    rw [hn] at hbind
    cases hbind
  | ok x =>
    obtain ⟨b, u₁⟩ := x
    rw [hn] at hbind
    obtain ⟨a, t, hma, rfl, hr⟩ := hm b u₁ hn
    obtain ⟨a', t', hfa, ht', hs⟩ := hf a b t hr b' u hbind
    exact ⟨a', t', (run_bind hma).trans hfa, ht', hs⟩

theorem step {n : StateT τ (Except ε) β'} (hm : m s = .ok (a, t)) (ht : abs t = abs s)
    (hf : Refines abs (f a) n t S) : Refines abs (m >>= f) n s S := by
  intro b' u hb
  rw [← ht] at hb
  obtain ⟨a', t', hfa, ht', hs⟩ := hf b' u hb
  exact ⟨a', t', (run_bind hm).trans hfa, ht', hs⟩

theorem mono (hm : Refines abs m n s R) (h : ∀ a b t, R a b t → R' a b t) :
    Refines abs m n s R' := by
  intro b u hb
  obtain ⟨a, t, hma, ht, hr⟩ := hm b u hb
  exact ⟨a, t, hma, ht, h a b t hr⟩

theorem returns (hm : Refines abs m n s R) (hn : Returns n (abs s) Q) :
    Returns m s fun a t => ∃ b, R a b t ∧ Q b (abs t) := by
  obtain ⟨b, u, hb, hq⟩ := hn
  obtain ⟨a, t, hma, rfl, hr⟩ := hm b u hb
  exact ⟨a, t, hma, b, hr, hq⟩

end Refines

/-- A computation that may fail: its result is as `Q` says, or its error as `E` says. -/
def Meets (E : ε → Prop) (m : Except ε α) (Q : α → Prop) : Prop :=
  match m with
  | .ok a => Q a
  | .error e => E e

namespace Meets

variable {E : ε → Prop} {m : Except ε α} {f : α → Except ε β} {a : α} {P Q : α → Prop} {R : β → Prop}

theorem of_ok (h : m = .ok a) (hq : Q a) : Meets E m Q := by
  rw [h]
  exact hq

theorem bind (hm : Meets E m P) (hf : ∀ a, P a → Meets E (f a) R) : Meets E (m >>= f) R := by
  cases m with
  | ok a => exact hf a hm
  | error e => exact hm

theorem bind_ok (hm : m = .ok a) (hf : Meets E (f a) R) : Meets E (m >>= f) R := by
  rw [hm]
  exact hf

end Meets

/-- A sum over a finite family, before and after one member is replaced. -/
theorem sum_update_add {ι γ : Type} [Fintype ι] [DecidableEq ι] (f : ι → γ) (g : ι → γ → Nat)
    (i : ι) (v : γ) :
    ∑ j, g j (Function.update f i v j) + g i (f i) = ∑ j, g j (f j) + g i v := by
  have h : ∀ j, g j (Function.update f i v j) =
      Function.update (fun j => g j (f j)) i (g i v) j := by
    intro j
    by_cases hj : j = i
    · subst hj
      simp
    · simp [Function.update_of_ne hj]
  simp only [h]
  rw [Finset.sum_update_of_mem (Finset.mem_univ i),
    ← Finset.add_sum_erase Finset.univ (fun j => g j (f j)) (Finset.mem_univ i),
    Finset.sdiff_singleton_eq_erase]
  omega

/-- One member of a family counts no more than the whole. -/
theorem le_sum_univ {ι : Type} [Fintype ι] (g : ι → Nat) (i : ι) : g i ≤ ∑ j, g j :=
  Finset.single_le_sum (fun _ _ => Nat.zero_le _) (Finset.mem_univ i)

theorem add_le_sum_univ {ι : Type} [Fintype ι] [DecidableEq ι] (g : ι → Nat) {i j : ι}
    (h : i ≠ j) : g i + g j ≤ ∑ k, g k := by
  rw [← Finset.add_sum_erase Finset.univ g (Finset.mem_univ i)]
  have hj : j ∈ Finset.univ.erase i := Finset.mem_erase.mpr ⟨h.symm, Finset.mem_univ j⟩
  have hle := Finset.single_le_sum (f := g) (fun _ _ => Nat.zero_le _) hj
  omega

end Xv6.Framework
