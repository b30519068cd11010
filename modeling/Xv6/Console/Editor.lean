import Xv6.Console.Model
import Mathlib.Algebra.Order.BigOperators.Group.List
import Mathlib.Algebra.Order.Ring.Nat

namespace Xv6.Console

open Xv6.Framework

/-- A line editor: every byte ever committed, how many of them reads have taken, and the line that
is being typed. -/
structure Line where
  stored : List UInt8
  taken : Nat
  tail : List UInt8

namespace Line

/-- The bytes that no read has taken. -/
def size (l : Line) : Nat := l.stored.length + l.tail.length - l.taken

def commit (l : Line) : Line := { l with stored := l.stored ++ l.tail, tail := [] }

def add (l : Line) (c : UInt8) : Line :=
  let l := { l with tail := l.tail ++ [c] }
  if c = newline ∨ c = ctrlD ∨ l.size = INPUT_BUF_SIZE then l.commit else l

def type (l : Line) (c : UInt8) : Line :=
  if c = ctrlP ∨ c = 0 then l
  else if c = ctrlU then { l with tail := [] }
  else if c = ctrlH ∨ c = delete then { l with tail := l.tail.dropLast }
  else if l.size = INPUT_BUF_SIZE then l
  else l.add (if c = carriageReturn then newline else c)

/-- A read takes committed bytes up to a newline; ^D ends it, and stays if the read has bytes. Where
there are no more, a killed process gives up. -/
def read (killed : Bool) : Nat → Line → List UInt8 → Line × Outcome
  | 0, l, out => (l, .ret out)
  | n + 1, l, out =>
    match l.stored[l.taken]? with
    | none => (l, if killed then .killed out else .sleep (n + 1) out)
    | some c =>
      if c = ctrlD then (if out = [] then { l with taken := l.taken + 1 } else l, .ret out)
      else if c = newline then ({ l with taken := l.taken + 1 }, .ret (out ++ [c]))
      else read killed n { l with taken := l.taken + 1 } (out ++ [c])

end Line

def Outcome.out : Outcome → List UInt8
  | .sleep _ out => out
  | .ret out => out
  | .killed out => out

/-- The bytes that the caller learns of. -/
def Outcome.bytes : Outcome → List UInt8
  | .killed _ => []
  | o => o.out

/-- The line editor and its readers; `given` are the bytes handed out, in order. -/
structure Editor (ι : Type) where
  line : Line
  killed : ι → Bool
  readers : ι → Option (Nat × List UInt8)
  returned : List (ι × Outcome)
  given : List (ι × UInt8)

namespace Editor

variable {ι : Type} [DecidableEq ι]

def boot : Editor ι := ⟨⟨[], 0, []⟩, fun _ => false, fun _ => none, [], []⟩

def run (s : Editor ι) (p : ι) (v : Nat × List UInt8) : Editor ι :=
  let (l, o) := s.line.read (s.killed p) v.1 v.2
  let given := s.given ++ (o.out.drop v.2.length).map fun c => (p, c)
  match o with
  | .sleep n out =>
    { s with line := l, given, readers := update s.readers p (some (n, out)) }
  | o =>
    { s with
      line := l
      given
      readers := update s.readers p none
      returned := s.returned ++ [(p, o)] }

def next (s : Editor ι) : Label ι → Option (Editor ι)
  | .input c => some { s with line := s.line.type c }
  | .read p n => if s.readers p = none then some (s.run p (n.toNat, [])) else none
  | .wake p => (s.readers p).map (s.run p)
  | .kill p => some { s with killed := update s.killed p true }

end Editor

section Ring

variable {k : Cons} {l : Line}

/-- The buffer holds the bytes of the editor that were not taken; the indices are the numbers of
bytes taken, committed and typed, modulo 2^32. -/
structure Shows (k : Cons) (l : Line) : Prop where
  r : k.r = UInt32.ofNat l.taken
  w : k.w = UInt32.ofNat l.stored.length
  e : k.e = UInt32.ofNat (l.stored.length + l.tail.length)
  le : l.taken ≤ l.stored.length
  room : l.stored.length + l.tail.length ≤ l.taken + INPUT_BUF_SIZE
  buf : ∀ j c, l.taken ≤ j → (l.stored ++ l.tail)[j]? = some c → k.buf (slot (UInt32.ofNat j)) = c

/-- INPUT_BUF_SIZE divides 2^32, so the places do not jump when an index wraps. -/
theorem slot_ofNat (j : Nat) : (slot (UInt32.ofNat j)).val = j % INPUT_BUF_SIZE := by
  show (UInt32.ofNat j).toNat % INPUT_BUF_SIZE = j % INPUT_BUF_SIZE
  exact Nat.mod_mod_of_dvd j (by decide)

theorem slot_ne {i j : Nat} (h : i < j) (hj : j < i + INPUT_BUF_SIZE) :
    slot (UInt32.ofNat i) ≠ slot (UInt32.ofNat j) := by
  intro hs
  have h' := congrArg Fin.val hs
  rw [slot_ofNat, slot_ofNat] at h'
  simp only [INPUT_BUF_SIZE] at h' hj
  omega

/-- Two counts that are close differ as they do modulo 2^32. -/
theorem toNat_sub_ofNat {a b : Nat} (h : b ≤ a) (hlt : a < b + 2 ^ 32) :
    (UInt32.ofNat a - UInt32.ofNat b).toNat = a - b := by
  rw [UInt32.toNat_sub, UInt32.toNat_ofNat', UInt32.toNat_ofNat']
  omega

theorem ofNat_inj {a b : Nat} (h : b ≤ a) (hlt : a < b + 2 ^ 32) :
    UInt32.ofNat a = UInt32.ofNat b ↔ a = b := by
  refine ⟨fun he => ?_, fun he => by rw [he]⟩
  have := toNat_sub_ofNat h hlt
  rw [he] at this
  simp at this
  omega

theorem ofNat_pred {a : Nat} (h : 0 < a) : UInt32.ofNat a - 1 = UInt32.ofNat (a - 1) := by
  obtain ⟨b, rfl⟩ : ∃ b, a = b + 1 := ⟨a - 1, by omega⟩
  rw [UInt32.ofNat_add]
  exact UInt32.add_sub_cancel _ _

namespace Shows

theorem used (h : Shows k l) : (k.e - k.r).toNat = l.size := by
  have h1 := h.le
  have h2 := h.room
  unfold INPUT_BUF_SIZE at h2
  rw [h.e, h.r, toNat_sub_ofNat (by omega) (by omega), Line.size]

theorem edited (h : Shows k l) : (k.e - k.w).toNat = l.tail.length := by
  have h1 := h.le
  have h2 := h.room
  unfold INPUT_BUF_SIZE at h2
  rw [h.e, h.w, toNat_sub_ofNat (by omega) (by omega)]
  omega

theorem ready (h : Shows k l) : (k.w - k.r).toNat = l.stored.length - l.taken := by
  have h1 := h.le
  have h2 := h.room
  unfold INPUT_BUF_SIZE at h2
  rw [h.w, h.r, toNat_sub_ofNat (by omega) (by omega)]

theorem tail_iff (h : Shows k l) : k.e ≠ k.w ↔ l.tail ≠ [] := by
  have h1 := h.le
  have h2 := h.room
  unfold INPUT_BUF_SIZE at h2
  rw [h.e, h.w, ne_eq, ofNat_inj (by omega) (by omega), ne_eq, ← List.length_eq_zero_iff]
  omega

theorem erase (h : Shows k l) (hne : l.tail ≠ []) :
    Shows { k with e := k.e - 1 } { l with tail := l.tail.dropLast } := by
  have hpos := List.length_pos_iff.mpr hne
  have hroom := h.room
  refine ⟨h.r, h.w, ?_, h.le, ?_, fun j c hj hc => ?_⟩
  · show k.e - 1 = UInt32.ofNat (l.stored.length + l.tail.dropLast.length)
    rw [h.e, ofNat_pred (by omega), List.length_dropLast, Nat.add_sub_assoc hpos]
  · show l.stored.length + l.tail.dropLast.length ≤ l.taken + INPUT_BUF_SIZE
    rw [List.length_dropLast]
    omega
  · refine h.buf j c hj ?_
    show (l.stored ++ l.tail)[j]? = some c
    have hlt : j < (l.stored ++ l.tail.dropLast).length := (List.getElem?_eq_some_iff.mp hc).1
    rw [← List.dropLast_append_getLast hne, ← List.append_assoc, List.getElem?_append_left hlt]
    exact hc

/-- A character is stored where none is waiting. -/
theorem store {c : UInt8} (h : Shows k l) (hroom : l.size < INPUT_BUF_SIZE) :
    Shows { k with buf := update k.buf (slot k.e) c, e := k.e + 1 }
      { l with tail := l.tail ++ [c] } := by
  unfold Line.size at hroom
  have hlen : (l.stored ++ (l.tail ++ [c])).length = l.stored.length + l.tail.length + 1 := by
    simp only [List.length_append, List.length_singleton]
    omega
  refine ⟨h.r, h.w, ?_, h.le, ?_, fun j x hj hx => ?_⟩
  · show k.e + 1 = UInt32.ofNat (l.stored.length + (l.tail ++ [c]).length)
    rw [← List.length_append, hlen, h.e]
    exact (UInt32.ofNat_add _ 1).symm
  · show l.stored.length + (l.tail ++ [c]).length ≤ l.taken + INPUT_BUF_SIZE
    rw [← List.length_append]
    omega
  · show update k.buf (slot k.e) c (slot (UInt32.ofNat j)) = x
    have hj' : j < l.stored.length + l.tail.length + 1 := by
      rw [← hlen]
      exact (List.getElem?_eq_some_iff.mp hx).1
    have hj : l.taken ≤ j := hj
    rw [← List.append_assoc] at hx
    rw [h.e]
    by_cases hlast : j = l.stored.length + l.tail.length
    · subst hlast
      rw [← List.length_append, List.getElem?_concat_length] at hx
      rw [update_self]
      exact Option.some.inj hx
    · have hlt : j < (l.stored ++ l.tail).length := by
        rw [List.length_append]
        omega
      rw [List.getElem?_append_left hlt] at hx
      rw [update_of_ne (slot_ne (by omega) (by omega))]
      exact h.buf j x hj hx

theorem commit (h : Shows k l) : Shows { k with w := k.e } l.commit := by
  have hle := h.le
  have hroom := h.room
  refine ⟨h.r, ?_, ?_, ?_, ?_, fun j c hj hc => h.buf j c hj ?_⟩
  · show k.e = UInt32.ofNat (l.stored ++ l.tail).length
    rw [h.e, List.length_append]
  · show k.e = UInt32.ofNat ((l.stored ++ l.tail).length + 0)
    rw [h.e, List.length_append, Nat.add_zero]
  · show l.taken ≤ (l.stored ++ l.tail).length
    rw [List.length_append]
    omega
  · show (l.stored ++ l.tail).length + 0 ≤ l.taken + INPUT_BUF_SIZE
    rw [List.length_append]
    exact hroom
  · rwa [Line.commit, List.append_nil] at hc

/-- A reader moves past a committed byte. -/
theorem take (h : Shows k l) (hlt : l.taken < l.stored.length) :
    Shows { k with r := k.r + 1 } { l with taken := l.taken + 1 } := by
  have hroom := h.room
  refine ⟨?_, h.w, h.e, hlt, ?_, fun j c hj hc => h.buf j c (Nat.le_of_succ_le hj) hc⟩
  · show k.r + 1 = UInt32.ofNat (l.taken + 1)
    rw [h.r, UInt32.ofNat_add]
    rfl
  · show l.stored.length + l.tail.length ≤ l.taken + 1 + INPUT_BUF_SIZE
    omega

/-- ^U erases the whole line, since no newline is in it. -/
theorem killLine {n : Nat} (h : Shows k l) (hn : l.tail.length = n) (hline : newline ∉ l.tail) :
    Shows (k.killLine n) { l with tail := [] } := by
  induction n generalizing k l with
  | zero =>
    rw [← List.eq_nil_of_length_eq_zero hn]
    exact h
  | succ n ih =>
    have hne : l.tail ≠ [] := fun he => by
      rw [he] at hn
      cases hn
    have hlast : k.buf (slot (k.e - 1)) = l.tail.getLast hne := by
      have hle := h.le
      rw [h.e, ofNat_pred (by omega)]
      refine h.buf _ _ (by omega) ?_
      rw [List.getElem?_append_right (by omega),
        show l.stored.length + l.tail.length - 1 - l.stored.length = l.tail.length - 1 by omega,
        ← List.getLast?_eq_getElem?, List.getLast?_eq_some_getLast hne]
    have hnl : k.buf (slot (k.e - 1)) ≠ newline := fun he =>
      hline (he ▸ hlast ▸ List.getLast_mem hne)
    rw [Cons.killLine, if_pos ⟨h.tail_iff.mpr hne, hnl⟩]
    have hlen : l.tail.dropLast.length = n := by rw [List.length_dropLast, hn, Nat.add_sub_cancel]
    exact @ih _ { l with tail := l.tail.dropLast } (h.erase hne) hlen fun hm =>
      hline (List.dropLast_subset _ hm)

theorem full_iff (h : Shows k l) :
    k.e - k.r < UInt32.ofNat INPUT_BUF_SIZE ↔ l.size < INPUT_BUF_SIZE := by
  rw [UInt32.lt_iff_toNat_lt, h.used]
  rfl

theorem end_iff (h : Shows k l) :
    k.e - k.r = UInt32.ofNat INPUT_BUF_SIZE ↔ l.size = INPUT_BUF_SIZE := by
  rw [← UInt32.toNat_inj, h.used]
  rfl

theorem size_le (h : Shows k l) : l.size ≤ INPUT_BUF_SIZE := by
  have hroom := h.room
  unfold Line.size
  omega

theorem consoleintr (h : Shows k l) (hline : newline ∉ l.tail) (c : UInt8) :
    Shows (k.consoleintr c) (l.type c) := by
  unfold Cons.consoleintr Line.type
  by_cases hP : c = ctrlP
  · rw [if_pos hP, if_pos (.inl hP)]
    exact h
  rw [if_neg hP]
  by_cases h0 : c = 0
  · subst h0
    exact h
  rw [if_neg (show ¬(c = ctrlP ∨ c = 0) from by simp [hP, h0])]
  by_cases hU : c = ctrlU
  · rw [if_pos hU, if_pos hU]
    exact h.killLine h.edited.symm hline
  rw [if_neg hU, if_neg hU]
  by_cases hH : c = ctrlH ∨ c = delete
  · rw [if_pos hH, if_pos hH]
    by_cases hne : l.tail = []
    · rw [if_neg fun he => h.tail_iff.mp he hne, hne, List.dropLast_nil, ← hne]
      exact h
    · rw [if_pos (h.tail_iff.mpr hne)]
      exact h.erase hne
  rw [if_neg hH, if_neg hH]
  by_cases hfull : l.size = INPUT_BUF_SIZE
  · rw [if_pos hfull, if_neg fun hc => absurd (h.full_iff.mp hc.2) (by omega)]
    exact h
  have hlt := Nat.lt_of_le_of_ne h.size_le hfull
  rw [if_neg hfull, if_pos ⟨h0, h.full_iff.mpr hlt⟩]
  generalize (if c = carriageReturn then newline else c) = x
  have hs := h.store (c := x) hlt
  have hend := hs.end_iff
  unfold Line.add
  by_cases hx : x = newline ∨ x = ctrlD ∨
      Line.size { l with tail := l.tail ++ [x] } = INPUT_BUF_SIZE
  · rw [if_pos hx, if_pos (by rwa [hend])]
    exact hs.commit
  · rw [if_neg hx, if_neg (by rwa [hend])]
    exact hs

/-- A read does on the buffer what it does on the editor. -/
theorem consoleread {target : Nat} (killed : Bool) (n : Nat) (out : List UInt8) (h : Shows k l)
    (ht : target = n + out.length) :
    Shows (k.consoleread target killed n out).1 (l.read killed n out).1 ∧
      (k.consoleread target killed n out).2 = (l.read killed n out).2 := by
  induction n generalizing k l out with
  | zero => exact ⟨h, rfl⟩
  | succ n ih =>
    have hle := h.le
    have hroom := h.room
    unfold INPUT_BUF_SIZE at hroom
    rw [Cons.consoleread, Line.read]
    by_cases hempty : l.stored.length = l.taken
    · rw [if_pos (by rw [h.r, h.w, hempty]), List.getElem?_eq_none (Nat.le_of_eq hempty)]
      exact ⟨h, rfl⟩
    have hlt : l.taken < l.stored.length := by omega
    have hne : k.r ≠ k.w := by
      rw [h.r, h.w, ne_comm, ne_eq, ofNat_inj hle (by omega)]
      exact hempty
    have hget : l.stored[l.taken]? = some l.stored[l.taken] := List.getElem?_eq_getElem hlt
    have hbyte : k.buf (slot k.r) = l.stored[l.taken] := by
      rw [h.r]
      refine h.buf _ _ (Nat.le_refl _) ?_
      rw [List.getElem?_append_left hlt, hget]
    rw [if_neg hne, hget, hbyte]
    dsimp only
    by_cases hD : l.stored[l.taken] = ctrlD
    · rw [if_pos hD, if_pos hD]
      refine ⟨?_, rfl⟩
      by_cases hout : out = []
      · rw [if_pos hout, if_neg (by rw [ht, hout, List.length_nil]; omega)]
        exact h.take hlt
      · have hpos := List.length_pos_iff.mpr hout
        -- the ^D goes back: the read has bytes already
        rw [if_neg hout, if_pos (by omega)]
        rw [UInt32.add_sub_cancel]
        exact h
    rw [if_neg hD, if_neg hD]
    by_cases hnl : l.stored[l.taken] = newline
    · rw [if_pos hnl, if_pos hnl]
      exact ⟨h.take hlt, rfl⟩
    · rw [if_neg hnl, if_neg hnl]
      refine ih (out ++ [l.stored[l.taken]]) (h.take hlt) ?_
      rw [List.length_append, List.length_singleton]
      omega

end Shows

end Ring

namespace Line

variable {l : Line}

/-- The bytes that reads have been given: what they have taken, without the ends of file. -/
def passed (l : Line) : List UInt8 := (l.stored.take l.taken).filter (· ≠ ctrlD)

end Line

namespace Editor

variable {ι : Type} [DecidableEq ι]

/-- The bytes of a process, by the reads that have ended and by the one it is in. -/
def has (s : Editor ι) (bytes : Outcome → List UInt8) (p : ι) : List UInt8 :=
  (s.returned.filter (·.1 = p)).flatMap (bytes ·.2) ++ ((s.readers p).map Prod.snd).getD []

/-- Every committed byte that was taken was given to one read, in order. -/
structure Intact (s : Editor ι) : Prop where
  le : s.line.taken ≤ s.line.stored.length
  line : newline ∉ s.line.tail
  stream : s.given.map Prod.snd = s.line.passed
  has : ∀ p, s.has Outcome.out p = (s.given.filter (·.1 = p)).map Prod.snd

end Editor

variable {ι : Type} [DecidableEq ι]

structure Follows (s : State ι) (t : Editor ι) : Prop where
  shows : Shows s.cons t.line
  killed : s.killed = t.killed
  readers : ∀ p, s.readers p = (t.readers p).map fun v => ⟨v.1 + v.2.length, v.1, v.2⟩
  returned : s.returned = t.returned
  intact : t.Intact

/-- A line with a corrected typing error, then ^D: the second read returns no bytes. -/
def typed : List (Label Bool) :=
  [.read true 10, .input 97, .input 98, .input ctrlH, .input 99, .input carriageReturn, .wake true,
    .input 100, .input ctrlD, .read false 10, .read true 10]

end Xv6.Console
