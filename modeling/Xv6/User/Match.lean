import Mathlib.Data.List.Induction
import Mathlib.Tactic.Common

namespace Xv6.Grep

abbrev Text := List UInt8

def caret : UInt8 := 94

def dollar : UInt8 := 36

def star : UInt8 := 42

def dot : UInt8 := 46

/-- matchstar(c, re, text), where here is matchhere with that re. -/
def matchstar (here : Text → Bool) (c : UInt8) : Text → Bool
  | [] => here []
  | x :: text => here (x :: text) || (x == c || c == dot) && matchstar here c text

/-- The comparison of one character at the end of matchhere. -/
def oneChar (here : Text → Bool) (c : UInt8) : Text → Bool
  | [] => false
  | x :: text => (c == dot || c == x) && here text

def matchhere : Text → Text → Bool
  | [], _ => true
  | [c], text => if c = dollar then text.isEmpty else oneChar (fun _ => true) c text
  | c :: d :: re, text =>
    if d = star then matchstar (matchhere re) c text else oneChar (matchhere (d :: re)) c text

def matchLoop (re : Text) : Text → Bool
  | [] => matchhere re []
  | x :: text => matchhere re (x :: text) || matchLoop re text

def matchText (re text : Text) : Bool :=
  if re.head? = some caret then matchhere re.tail text else matchLoop re text

def Accepts (c x : UInt8) : Prop := c = dot ∨ c = x

/-- The language of a pattern: `Matches re word rest` if word is in it where rest follows. -/
inductive Matches : Text → Text → Text → Prop
  | nil (rest : Text) : Matches [] [] rest
  | star {c : UInt8} {re run word rest : Text} (hrun : ∀ x ∈ run, Accepts c x)
      (h : Matches re word rest) : Matches (c :: star :: re) (run ++ word) rest
  | dollar : Matches [dollar] [] []
  | char {c x : UInt8} {re word rest : Text} (hstar : re.head? ≠ some Grep.star)
      (hend : ¬ (c = Grep.dollar ∧ re = [])) (hx : Accepts c x) (h : Matches re word rest) :
      Matches (c :: re) (x :: word) rest

/-- A pattern matches at the beginning of a text. -/
def Begins (re text : Text) : Prop := ∃ word rest, text = word ++ rest ∧ Matches re word rest

theorem accepts_iff {c x : UInt8} : (x == c || c == dot) = true ↔ Accepts c x := by
  rw [Bool.or_eq_true, beq_iff_eq, beq_iff_eq, or_comm, eq_comm (a := x)]
  rfl

theorem matchstar_iff (here : Text → Bool) (c : UInt8) (text : Text) :
    matchstar here c text = true ↔
      ∃ run rest, text = run ++ rest ∧ (∀ x ∈ run, Accepts c x) ∧ here rest = true := by
  induction text with
  | nil => simp [matchstar]
  | cons x text ih =>
    rw [matchstar, Bool.or_eq_true, Bool.and_eq_true, ih]
    constructor
    · rintro (h | ⟨hx, run, rest, rfl, hrun, h⟩)
      · exact ⟨[], x :: text, rfl, by simp, h⟩
      · exact ⟨x :: run, rest, rfl, List.forall_mem_cons.mpr ⟨accepts_iff.mp hx, hrun⟩, h⟩
    · rintro ⟨run, rest, he, hrun, h⟩
      cases run with
      | nil =>
        rw [he]
        exact .inl h
      | cons y run =>
        cases he
        rw [List.forall_mem_cons] at hrun
        exact .inr ⟨accepts_iff.mpr hrun.1, run, rest, rfl, hrun.2, h⟩

theorem begins_nil (text : Text) : Begins [] text := ⟨[], text, rfl, .nil text⟩

theorem begins_star {c : UInt8} {re text : Text} :
    Begins (c :: star :: re) text ↔
      ∃ run rest, text = run ++ rest ∧ (∀ x ∈ run, Accepts c x) ∧ Begins re rest := by
  constructor
  · rintro ⟨_, rest, rfl, h⟩
    cases h with
    | star hrun h => exact ⟨_, _, List.append_assoc _ _ _, hrun, _, rest, rfl, h⟩
    | char hstar => exact absurd rfl hstar
  · rintro ⟨run, _, rfl, hrun, word, rest, rfl, h⟩
    exact ⟨run ++ word, rest, (List.append_assoc _ _ _).symm, .star hrun h⟩

theorem begins_char {c : UInt8} {re text : Text} (hstar : re.head? ≠ some star)
    (hend : ¬ (c = dollar ∧ re = [])) :
    Begins (c :: re) text ↔ ∃ x tail, text = x :: tail ∧ Accepts c x ∧ Begins re tail := by
  constructor
  · rintro ⟨_, rest, rfl, h⟩
    cases h with
    | star => exact absurd rfl hstar
    | dollar => exact absurd ⟨rfl, rfl⟩ hend
    | char _ _ hx h => exact ⟨_, _, rfl, hx, _, rest, rfl, h⟩
  · rintro ⟨x, _, rfl, hx, word, rest, rfl, h⟩
    exact ⟨x :: word, rest, rfl, .char hstar hend hx h⟩

theorem begins_dollar {text : Text} : Begins [dollar] text ↔ text = [] := by
  constructor
  · rintro ⟨_, _, rfl, h⟩
    cases h with
    | dollar => rfl
    | char _ hend => exact absurd ⟨rfl, rfl⟩ hend
  · rintro rfl
    exact ⟨[], [], rfl, .dollar⟩

theorem oneChar_iff (here : Text → Bool) (c : UInt8) (text : Text) :
    oneChar here c text = true ↔ ∃ x tail, text = x :: tail ∧ Accepts c x ∧ here tail = true := by
  cases text with
  | nil => simp [oneChar]
  | cons x text => simp [oneChar, Accepts]

theorem matchhere_iff (re text : Text) : matchhere re text = true ↔ Begins re text := by
  induction re using List.twoStepInduction generalizing text with
  | nil => simp [matchhere, begins_nil]
  | singleton c =>
    rw [matchhere]
    split
    · subst c
      rw [List.isEmpty_iff, begins_dollar]
    · rename_i h
      rw [oneChar_iff, begins_char (by simp) (by simp [h])]
      simp only [begins_nil]
  | cons_cons c d re ih ih' =>
    rw [matchhere]
    split
    · subst d
      rw [matchstar_iff, begins_star]
      simp only [ih]
    · rename_i h
      rw [oneChar_iff, begins_char (by simpa using h) (by simp)]
      simp only [ih']

theorem matchLoop_iff (re text : Text) :
    matchLoop re text = true ↔ ∃ before rest, text = before ++ rest ∧ Begins re rest := by
  induction text with
  | nil =>
    rw [matchLoop, matchhere_iff]
    simp
  | cons x text ih =>
    rw [matchLoop, Bool.or_eq_true, ih, matchhere_iff]
    constructor
    · rintro (h | ⟨before, rest, rfl, h⟩)
      · exact ⟨[], x :: text, rfl, h⟩
      · exact ⟨x :: before, rest, rfl, h⟩
    · rintro ⟨before, rest, he, h⟩
      cases before with
      | nil =>
        rw [he]
        exact .inl h
      | cons y before =>
        cases he
        exact .inr ⟨before, rest, rfl, h⟩

/-- match finds a part of the text that is in the language of the pattern. -/
theorem match_iff (re text : Text) :
    matchText re text = true ↔ ∃ before word rest, text = before ++ (word ++ rest) ∧
      if re.head? = some caret then before = [] ∧ Matches re.tail word rest
      else Matches re word rest := by
  rw [matchText]
  split
  · rw [matchhere_iff]
    constructor
    · rintro ⟨word, rest, rfl, h⟩
      exact ⟨[], word, rest, rfl, rfl, h⟩
    · rintro ⟨_, word, rest, rfl, rfl, h⟩
      exact ⟨word, rest, rfl, h⟩
  · rw [matchLoop_iff]
    constructor
    · rintro ⟨before, _, rfl, word, rest, rfl, h⟩
      exact ⟨before, word, rest, rfl, h⟩
    · rintro ⟨before, word, rest, rfl, h⟩
      exact ⟨before, _, rfl, word, rest, rfl, h⟩

end Xv6.Grep
