import Mathlib.Data.List.Nodup
import Mathlib.Tactic.Common

namespace Xv6.Framework

variable {α : Type}

/-- From `a`, the links lead through a list to `z`. -/
def Linked (next : α → α) : α → List α → α → Prop
  | a, [], z => next a = z
  | a, b :: l, z => next a = b ∧ Linked next b l z

namespace Linked

variable {next next' : α → α} {a b z : α} {l l₁ l₂ : List α}

theorem append : Linked next a (l₁ ++ b :: l₂) z ↔ Linked next a l₁ b ∧ Linked next b l₂ z := by
  induction l₁ generalizing a with
  | nil => exact Iff.rfl
  | cons c l₁ ih => exact (and_congr_right fun _ => ih).trans and_assoc.symm

theorem rotate (h : Linked next a (l₁ ++ b :: l₂) a) : Linked next b (l₂ ++ a :: l₁) b :=
  append.mpr (append.mp h).symm

theorem congr (h : Linked next a l z) (hn : ∀ x ∈ a :: l, next' x = next x) : Linked next' a l z := by
  induction l generalizing a with
  | nil => exact (hn a List.mem_cons_self).trans h
  | cons b l ih =>
    exact ⟨(hn a List.mem_cons_self).trans h.1, ih h.2 fun x hx => hn x (List.mem_cons_of_mem a hx)⟩

/-- What comes after a member is the next member, or the end. -/
theorem next_mem (h : Linked next a l z) {x : α} (hx : x ∈ a :: l) : next x ∈ l ∨ next x = z := by
  induction l generalizing a with
  | nil => exact .inr (List.mem_singleton.mp hx ▸ h)
  | cons b l ih =>
    rcases List.mem_cons.mp hx with rfl | hx
    · exact .inl (h.1 ▸ List.mem_cons_self)
    · exact (ih h.2 hx).imp_left (List.mem_cons_of_mem b)

/-- The link of the last member leads to the end. -/
theorem last (h : Linked next a l z) : next (l.getLastD a) = z := by
  induction l generalizing a with
  | nil => exact h
  | cons b l ih =>
    rw [List.getLastD_cons]
    exact ih h.2

/-- Without repetitions, a place has one predecessor. -/
theorem unique (h : Linked next a l z) (hn : (a :: l).Nodup) (hz : z ∉ l) {x y : α} (hx : x ∈ a :: l)
    (hy : y ∈ a :: l) (he : next x = next y) : x = y := by
  induction l generalizing a with
  | nil => rw [List.mem_singleton.mp hx, List.mem_singleton.mp hy]
  | cons b l ih =>
    obtain ⟨ha, hn'⟩ := List.nodup_cons.mp hn
    have hb : b ∉ l := (List.nodup_cons.mp hn').1
    -- nothing behind `b` links to `b`
    have key : ∀ w ∈ b :: l, next w ≠ b := fun w hw hwb => by
      rcases h.2.next_mem hw with hm | hm
      · exact hb (hwb ▸ hm)
      · exact hz (hm ▸ hwb ▸ List.mem_cons_self)
    rcases List.mem_cons.mp hx with hxa | hx'
    · rcases List.mem_cons.mp hy with hya | hy'
      · exact hxa.trans hya.symm
      · exact absurd (he.symm.trans (hxa ▸ h.1)) (key y hy')
    · rcases List.mem_cons.mp hy with hya | hy'
      · exact absurd (he.trans (hya ▸ h.1)) (key x hx')
      · exact ih h.2 hn' (fun hm => hz (List.mem_cons_of_mem b hm)) hx' hy'

/-- A member is taken out: the one in front of it links to what comes behind. -/
theorem bypass [DecidableEq α] (h : Linked next a (l₁ ++ b :: l₂) z)
    (hn : (a :: (l₁ ++ b :: l₂)).Nodup) :
    Linked (Function.update next (l₁.getLastD a) (next b)) a (l₁ ++ l₂) z := by
  induction l₁ generalizing a with
  | nil =>
    obtain ⟨-, h2⟩ := h
    have ha : a ∉ l₂ := fun hm => (List.nodup_cons.mp hn).1 (List.mem_cons_of_mem b hm)
    cases l₂ with
    | nil => exact (Function.update_self _ _ _).trans h2
    | cons c l₂ =>
      refine ⟨(Function.update_self _ _ _).trans h2.1, h2.2.congr fun x hx => ?_⟩
      have hxa : x ≠ a := fun he => ha (he ▸ hx)
      exact Function.update_of_ne hxa _ _
  | cons c l₁ ih =>
    obtain ⟨ha, hn'⟩ := List.nodup_cons.mp hn
    rw [List.getLastD_cons]
    have hne : a ≠ l₁.getLastD c := fun he =>
      ha (List.mem_append_left (b :: l₂) (he ▸ List.getLastD_mem_cons))
    exact ⟨(Function.update_of_ne hne _ _).trans h.1, ih h.2 hn'⟩

theorem behind (h : Linked next a l z) (hb : next' b = next a) (hn : ∀ x ∈ l, next' x = next x) :
    Linked next' b l z := by
  cases l with
  | nil => exact hb.trans h
  | cons c l => exact ⟨hb.trans h.1, h.2.congr hn⟩

/-- The first link leads to the last place of the list read backwards. -/
theorem first (h : Linked next a l z) : next a = l.reverse.getLastD z := by
  cases l with
  | nil => exact h
  | cons b l => simpa using h.1

/-- The last link is turned to another place. -/
theorem redirect [DecidableEq α] (h : Linked next a l z) (hn : (a :: l).Nodup) (y : α) :
    Linked (Function.update next (l.getLastD a) y) a l y := by
  induction l generalizing a with
  | nil => exact Function.update_self _ _ _
  | cons b l ih =>
    obtain ⟨ha, hn'⟩ := List.nodup_cons.mp hn
    rw [List.getLastD_cons]
    have hne : a ≠ l.getLastD b := fun he => ha (he ▸ List.getLastD_mem_cons)
    exact ⟨(Function.update_of_ne hne _ _).trans h.1, ih h.2 hn'⟩

end Linked

/-- A list of places that is linked both ways, through an anchor. -/
structure Ring (next prev : α → α) (a : α) (l : List α) : Prop where
  nodup : (a :: l).Nodup
  fore : Linked next a l a
  back : Linked prev a l.reverse a

namespace Ring

variable [DecidableEq α] {next prev : α → α} {a b : α} {l l₁ l₂ : List α}

theorem unlink (h : Ring next prev a (l₁ ++ b :: l₂)) :
    Ring (Function.update next (prev b) (next b)) (Function.update prev (next b) (prev b)) a
      (l₁ ++ l₂) := by
  have hr : (l₁ ++ b :: l₂).reverse = l₂.reverse ++ b :: l₁.reverse := by simp
  have hback := hr ▸ h.back
  have hn : (a :: (l₂.reverse ++ b :: l₁.reverse)).Nodup := by
    rw [← hr, List.nodup_cons, List.mem_reverse, List.nodup_reverse]
    exact List.nodup_cons.mp h.nodup
  -- either neighbour of `b` is the last place of what is in front of it
  have hprev : prev b = l₁.getLastD a := by
    rw [(Linked.append.mp hback).2.first, List.reverse_reverse]
  have hnext : next b = l₂.reverse.getLastD a := (Linked.append.mp h.fore).2.first
  refine ⟨?_, hprev ▸ h.fore.bypass h.nodup, ?_⟩
  · exact h.nodup.sublist (.cons_cons a (.append_left (List.sublist_cons_self b l₂) l₁))
  · rw [List.reverse_append]
    exact hnext ▸ hback.bypass hn

/-- A new place comes right behind the anchor. -/
theorem insert (h : Ring next prev a l) (hb : b ∉ a :: l) :
    Ring (Function.update (Function.update next b (next a)) a b)
      (Function.update (Function.update prev b a) (next a) b) a (b :: l) := by
  obtain ⟨hba, hbl⟩ := not_or.mp (mt List.mem_cons.mpr hb)
  obtain ⟨ha, hn⟩ := List.nodup_cons.mp h.nodup
  have hne : next a ≠ b := fun he =>
    hb (List.mem_cons.mpr (he ▸ (h.fore.next_mem List.mem_cons_self).symm))
  refine ⟨by simp [ha, hbl, hn, Ne.symm hba], ⟨Function.update_self _ _ _, ?_⟩, ?_⟩
  · refine h.fore.behind ?_ fun x hx => ?_
    · rw [Function.update_of_ne hba, Function.update_self]
    · rw [Function.update_of_ne (ne_of_mem_of_not_mem hx ha),
        Function.update_of_ne (ne_of_mem_of_not_mem hx hbl)]
  · have hback : Linked (Function.update prev b a) a l.reverse a := h.back.congr fun x hx =>
      Function.update_of_ne (fun he => hb (by simpa [he] using hx)) _ _
    have hrev : (a :: l.reverse).Nodup := by simp [ha, hn]
    rw [List.reverse_cons, Linked.append]
    refine ⟨h.fore.first ▸ hback.redirect hrev b, ?_⟩
    rw [Linked, Function.update_of_ne hne.symm, Function.update_self]

end Ring

/-- Follow the links until a test holds. -/
def walk (next : α → α) (stop : α → Prop) [DecidablePred stop] : Nat → α → Option α
  | 0, _ => none
  | fuel + 1, a => if stop a then some a else walk next stop fuel (next a)

/-- The walk ends at the first member that passes the test. -/
theorem walk_eq {next : α → α} {stop : α → Prop} [DecidablePred stop] {a b z : α} {l l₁ l₂ : List α}
    {fuel : Nat} (h : Linked next a l z) (hl : a :: l = l₁ ++ b :: l₂) (hb : stop b)
    (hno : ∀ x ∈ l₁, ¬stop x) (hf : l₁.length < fuel) : walk next stop fuel a = some b := by
  induction l₁ generalizing a l fuel with
  | nil =>
    obtain ⟨fuel, rfl⟩ : ∃ n, fuel = n + 1 := ⟨fuel - 1, by omega⟩
    obtain rfl : a = b := (List.cons.inj hl).1
    rw [walk, if_pos hb]
  | cons c l₁ ih =>
    obtain ⟨fuel, rfl⟩ : ∃ n, fuel = n + 1 := ⟨fuel - 1, by omega⟩
    obtain ⟨rfl, htail⟩ := List.cons.inj hl
    rw [walk, if_neg (hno a List.mem_cons_self)]
    cases l with
    | nil => simp at htail
    | cons d l =>
      rw [h.1]
      exact ih h.2 htail (fun x hx => hno x (List.mem_cons_of_mem a hx)) (by simpa using hf)

/-- A walk round a ring of options, from its anchor `none`, is a search of the list. -/
theorem walk_find {next : Option α → Option α} (p : α → Bool) {a : Option α} {l : List α} {fuel : Nat}
    (h : Linked next a (l.map some) none) (hf : l.length < fuel) :
    walk next (fun b => b.all p) fuel (next a) = some (l.find? p) := by
  induction l generalizing a fuel with
  | nil =>
    obtain ⟨fuel, rfl⟩ : ∃ n, fuel = n + 1 := ⟨fuel - 1, by omega⟩
    rw [show next a = none from h, walk, Option.all_none, if_pos rfl, List.find?_nil]
  | cons b l ih =>
    obtain ⟨fuel, rfl⟩ : ∃ n, fuel = n + 1 := ⟨fuel - 1, by omega⟩
    rw [h.1, walk, ih h.2 (by simpa using hf)]
    cases hb : p b <;> simp [hb]

end Xv6.Framework
