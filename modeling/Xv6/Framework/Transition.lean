import Mathlib.Data.List.Basic

namespace Xv6.Framework

export Function (update update_self update_of_ne update_apply update_eq_self update_idem update_comm)

/-- One step of a run with the states around it. -/
structure Event (σ α : Type) where
  pre : σ
  label : α
  post : σ

variable {σ α : Type}

/-- The runs of a partial step function; the trace lists the oldest step first. -/
inductive Path (next : σ → α → Option σ) (s : σ) : List (Event σ α) → σ → Prop
  | nil : Path next s [] s
  | snoc {t u : σ} {tr : List (Event σ α)} {a : α} :
      Path next s tr t → next t a = some u → Path next s (tr ++ [⟨t, a, u⟩]) u

namespace Path

variable {next : σ → α → Option σ} {s t u : σ} {tr tr' : List (Event σ α)} {e : Event σ α}

theorem single {a : α} (h : next s a = some t) : Path next s [⟨s, a, t⟩] t :=
  Path.nil.snoc h

theorem trans (h : Path next s tr t) (h' : Path next t tr' u) : Path next s (tr ++ tr') u := by
  induction h' with
  | nil => simpa using h
  | snoc _ hn ih =>
    rw [← List.append_assoc]
    exact ih.snoc hn

theorem of_append (h : Path next s (tr ++ tr') u) :
    ∃ t, Path next s tr t ∧ Path next t tr' u := by
  generalize hl : tr ++ tr' = l at h
  induction h generalizing tr' with
  | nil =>
    obtain ⟨rfl, rfl⟩ := List.append_eq_nil_iff.mp hl
    exact ⟨s, .nil, .nil⟩
  | @snoc t u l a hp hn ih =>
    rcases List.eq_nil_or_concat tr' with rfl | ⟨m, e, rfl⟩
    · rw [List.append_nil] at hl
      subst hl
      exact ⟨u, hp.snoc hn, .nil⟩
    · rw [List.concat_eq_append, ← List.append_assoc] at hl
      obtain ⟨hm, he⟩ := List.append_inj' hl rfl
      obtain ⟨v, h1, h2⟩ := ih hm
      rw [List.concat_eq_append, List.singleton_inj.mp he]
      exact ⟨v, h1, h2.snoc hn⟩

/-- A run cut at one of its steps. -/
theorem split (h : Path next s (tr ++ e :: tr') u) :
    Path next s tr e.pre ∧ next e.pre e.label = some e.post ∧ Path next e.post tr' u := by
  obtain ⟨t, h1, h2⟩ := h.of_append
  obtain ⟨v, h3, h4⟩ := (show Path next t ([e] ++ tr') u from h2).of_append
  generalize hl : [e] = l at h3
  cases h3 with
  | nil => simp at hl
  | @snoc t' _ l a hp hn =>
    obtain ⟨rfl, he⟩ := List.append_inj' (show [] ++ [e] = l ++ [⟨t', a, v⟩] from hl) rfl
    obtain rfl := List.singleton_inj.mp he
    generalize hl' : ([] : List (Event σ α)) = l at hp
    cases hp with
    | nil => exact ⟨h1, hn, h4⟩
    | snoc => simp at hl'

theorem step_of_mem (h : Path next s tr u) (he : e ∈ tr) :
    next e.pre e.label = some e.post := by
  obtain ⟨l, r, rfl⟩ := List.append_of_mem he
  exact h.split.2.1

/-- Invariant rule: what every admitted step preserves holds along every run whose steps are
all admitted. -/
theorem invariant {I : σ → Prop} {C : Event σ α → Prop}
    (hstep : ∀ s a t, I s → next s a = some t → C ⟨s, a, t⟩ → I t)
    (h : Path next s tr t) (hs : I s) (hC : ∀ e ∈ tr, C e) : I t := by
  induction h with
  | nil => exact hs
  | snoc _ hn ih =>
    exact hstep _ _ _ (ih fun e he => hC e (by simp [he])) hn (hC _ (by simp))

theorem invariant_mem {I : σ → Prop} {C : Event σ α → Prop}
    (hstep : ∀ s a t, I s → next s a = some t → C ⟨s, a, t⟩ → I t)
    (h : Path next s tr t) (hs : I s) (hC : ∀ e ∈ tr, C e) (he : e ∈ tr) :
    I e.pre ∧ I e.post := by
  obtain ⟨l, r, rfl⟩ := List.append_of_mem he
  obtain ⟨h1, hn, _⟩ := h.split
  have hpre : I e.pre := h1.invariant hstep hs fun x hx => hC x (by simp [hx])
  exact ⟨hpre, hstep _ _ _ hpre hn (hC e (by simp))⟩

end Path

/-- The first element of a list that fails a test. -/
theorem exists_first_failure {β : Type} {C : β → Prop} {l : List β} (h : ¬ ∀ x ∈ l, C x) :
    ∃ l₁ x l₂, l = l₁ ++ x :: l₂ ∧ (∀ y ∈ l₁, C y) ∧ ¬ C x := by
  induction l with
  | nil => simp at h
  | cons x l ih =>
    by_cases hx : C x
    · obtain ⟨l₁, y, l₂, rfl, h1, h2⟩ := ih fun hall => h (by simpa [hx] using hall)
      exact ⟨x :: l₁, y, l₂, rfl, by simpa [hx] using h1, h2⟩
    · exact ⟨[], x, l, rfl, by simp, hx⟩

/-- A list cut at two of its elements. -/
theorem cut_twice {β : Type} {l : List β} {i j : Nat} (hij : i < j) (hj : j < l.length) :
    l = l.take i ++ l[i] :: ((l.take j).drop (i + 1) ++ l[j] :: l.drop (j + 1)) := by
  have htail : l.drop (i + 1) = (l.take j).drop (i + 1) ++ l.drop j := by
    rw [← List.drop_append_of_le_length (by rw [List.length_take]; omega), List.take_append_drop]
  calc l = l.take i ++ l.drop i := (List.take_append_drop i l).symm
    _ = l.take i ++ l[i] :: l.drop (i + 1) :=
      congrArg _ (List.drop_eq_getElem_cons (Nat.lt_trans hij hj))
    _ = l.take i ++ l[i] :: ((l.take j).drop (i + 1) ++ l[j] :: l.drop (j + 1)) := by
      rw [htail, ← List.drop_eq_getElem_cons hj]

def exec (next : σ → α → Option σ) : σ → List α → Option σ
  | s, [] => some s
  | s, a :: as => (next s a).bind fun t => exec next t as

def events (next : σ → α → Option σ) : σ → List α → List (Event σ α)
  | _, [] => []
  | s, a :: as => match next s a with
    | none => []
    | some t => ⟨s, a, t⟩ :: events next t as

variable {next : σ → α → Option σ} {as : List α}

theorem path_of_exec {s t : σ}
    (h : exec next s as = some t) : Path next s (events next s as) t := by
  induction as generalizing s with
  | nil =>
    cases h
    exact .nil
  | cons a as ih =>
    obtain ⟨v, hv, hr⟩ := Option.bind_eq_some_iff.mp h
    simp only [events, hv]
    exact (Path.single hv).trans (ih hr)

def final (next : σ → α → Option σ) (s : σ) (as : List α) : σ := (exec next s as).getD s

theorem path_final {s : σ}
    (h : (exec next s as).isSome = true) : Path next s (events next s as) (final next s as) := by
  obtain ⟨t, ht⟩ := Option.isSome_iff_exists.mp h
  rw [final, ht]
  exact path_of_exec ht

theorem events_labels {s t : σ}
    (h : exec next s as = some t) : (events next s as).map Event.label = as := by
  induction as generalizing s with
  | nil => rfl
  | cons a as ih =>
    obtain ⟨v, hv, hr⟩ := Option.bind_eq_some_iff.mp h
    simp [events, hv, ih hr]

theorem mem_events_cons {s : σ} {a : α} {e : Event σ α}
    (h : e ∈ events next s (a :: as)) :
    e.pre = s ∧ e.label = a ∨ ∃ t, e ∈ events next t as := by
  rw [events] at h
  split at h
  · cases h
  · rcases List.mem_cons.mp h with rfl | h
    · exact .inl ⟨rfl, rfl⟩
    · exact .inr ⟨_, h⟩

theorem label_mem_of_events {s : σ} {e : Event σ α}
    (h : e ∈ events next s as) : e.label ∈ as := by
  induction as generalizing s with
  | nil => cases h
  | cons a as ih =>
    rcases mem_events_cons h with ⟨-, hl⟩ | ⟨t, ht⟩
    · exact hl ▸ List.mem_cons_self
    · exact List.mem_cons_of_mem a (ih ht)

end Xv6.Framework
