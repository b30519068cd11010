import Mathlib.Tactic.Common

namespace Xv6.Cp

abbrev Contents := List UInt8

/-- What the kernel does in one turn of the loop: read fails or has so many bytes ready, write
fails after so many bytes or does not. -/
structure Turn where
  read : Option Nat
  writeFails : Option Nat

/-- What the kernel does in a run. -/
structure Env where
  openSrc : Bool
  openDst : Bool
  turn : Nat → Turn

def BUFSIZE : Nat := 512

/-- writei at an offset of a regular file. -/
def writeAt (file : Contents) (off : Nat) (bytes : Contents) : Contents :=
  file.take off ++ bytes ++ file.drop (off + bytes.length)

/-- What read(src, buf, sizeof(buf)) returns where rest is ahead of the offset. -/
def readCount (t : Turn) (rest : Contents) : Option Nat :=
  t.read.map fun ready => min (min ready BUFSIZE) rest.length

theorem readCount_le {t : Turn} {rest : Contents} {n : Nat} (h : readCount t rest = some n) :
    n ≤ rest.length := by
  obtain ⟨ready, -, rfl⟩ := Option.map_eq_some_iff.mp h
  exact Nat.min_le_right _ _

/-- The loop of main, with what is ahead in the source, the destination and its offset: the exit
status and the destination. A read that fails ends it like the end of the source does. -/
def copyLoop (turn : Nat → Turn) (i : Nat) (rest dst : Contents) (off : Nat) : Nat × Contents :=
  match _h : readCount (turn i) rest with
  | none => (0, dst)
  | some 0 => (0, dst)
  | some (n + 1) =>
    match (turn i).writeFails with
    | some short => (1, writeAt dst off ((rest.take (n + 1)).take short))
    | none => copyLoop turn (i + 1) (rest.drop (n + 1)) (writeAt dst off (rest.take (n + 1)))
        (off + (n + 1))
termination_by rest.length
decreasing_by
  have := readCount_le _h
  rw [List.length_drop]
  omega

def main (e : Env) (src : Contents) (dst : Option Contents) : Nat × Option Contents :=
  if ¬ e.openSrc then (1, dst)
  else if ¬ e.openDst then (1, dst)
  else
    let (status, file) := copyLoop e.turn 0 src (dst.getD []) 0
    (status, some file)

/-- How many bytes the reads give before one fails or gives none. -/
def copied (turn : Nat → Turn) (i : Nat) (rest : Contents) : Nat :=
  match _h : readCount (turn i) rest with
  | none => 0
  | some 0 => 0
  | some (n + 1) => n + 1 + copied turn (i + 1) (rest.drop (n + 1))
termination_by rest.length
decreasing_by
  have := readCount_le _h
  rw [List.length_drop]
  omega

/-- A file that begins like the source, after more of the source is written. -/
theorem writeAt_next {src old : Contents} {off n : Nat} (h : off + n ≤ src.length) :
    writeAt (src.take off ++ old.drop off) off ((src.drop off).take n) =
      src.take (off + n) ++ old.drop (off + n) := by
  have htake : (src.take off).length = off := by
    rw [List.length_take]
    omega
  have hchunk : ((src.drop off).take n).length = n := by
    rw [List.length_take, List.length_drop]
    omega
  rw [writeAt, hchunk, List.take_left' htake, List.take_add, ← List.drop_drop,
    List.drop_left' htake, List.drop_drop]

section Steps

variable {turn : Nat → Turn} {i off n : Nat} {rest dst : Contents}

theorem copyLoop_end (h : readCount (turn i) rest = some 0) :
    copyLoop turn i rest dst off = (0, dst) := by
  rw [copyLoop]
  split <;> simp_all

theorem copyLoop_next (h : readCount (turn i) rest = some (n + 1)) (hw : (turn i).writeFails = none) :
    copyLoop turn i rest dst off = copyLoop turn (i + 1) (rest.drop (n + 1))
      (writeAt dst off (rest.take (n + 1))) (off + (n + 1)) := by
  rw [copyLoop]
  split <;> simp_all

theorem copied_next (h : readCount (turn i) rest = some (n + 1)) :
    copied turn i rest = n + 1 + copied turn (i + 1) (rest.drop (n + 1)) := by
  rw [copied]
  split <;> simp_all

theorem copied_end (h : ∀ n, readCount (turn i) rest ≠ some (n + 1)) : copied turn i rest = 0 := by
  rw [copied]
  split <;> simp_all

end Steps

/-- The destination is the source up to where the reads ended, and what it was after that. -/
theorem copyLoop_spec {turn : Nat → Turn} {i off : Nat} {src old rest dst : Contents}
    (hoff : off ≤ src.length) (hrest : rest = src.drop off)
    (hdst : dst = src.take off ++ old.drop off) (h : (copyLoop turn i rest dst off).1 = 0) :
    (copyLoop turn i rest dst off).2 =
      src.take (off + copied turn i rest) ++ old.drop (off + copied turn i rest) := by
  fun_induction copyLoop turn i rest dst off with
  | case1 i rest dst off hr =>
    rw [copied_end (by simp [hr])]
    exact hdst
  | case2 i rest dst off hr =>
    rw [copied_end (by simp [hr])]
    exact hdst
  | case3 => cases h
  | case4 i rest dst off n hr hw ih =>
    have hn := readCount_le hr
    subst hrest hdst
    rw [List.length_drop] at hn
    rw [copied_next hr, ← Nat.add_assoc off (n + 1)]
    exact ih (by omega) (List.drop_drop ..) (writeAt_next (by omega)) h

/-- If cp exits with status 0 the destination is the source just if the two were already the same
after the bytes that could be read. -/
theorem cp_copies_iff (e : Env) (src : Contents) (dst : Option Contents)
    (h : (main e src dst).1 = 0) :
    (main e src dst).2 = some src ↔
      (dst.getD []).drop (copied e.turn 0 src) = src.drop (copied e.turn 0 src) := by
  rw [main] at h ⊢
  split at h
  · cases h
  split at h
  · cases h
  rw [if_neg ‹_›, if_neg ‹_›]
  have hloop := @copyLoop_spec e.turn 0 0 src (dst.getD []) _ _ (Nat.zero_le _) rfl rfl h
  rw [Nat.zero_add] at hloop
  rw [Option.some_inj]
  refine (Eq.congr_left hloop).trans ?_
  conv_lhs => rhs; rw [← List.take_append_drop (copied e.turn 0 src) src]
  exact List.append_right_inj _

def calm : Env := ⟨true, true, fun _ => ⟨some BUFSIZE, none⟩⟩

theorem cp_copies_new : (main calm [1] none).2 = some [1] := by
  refine (cp_copies_iff calm [1] none ?_).mpr ?_
  · rw [main, copyLoop_next rfl rfl, copyLoop_end rfl]
    rfl
  · rw [copied_next rfl, copied_end (by simp [readCount])]
    rfl

/-- A longer destination keeps its end. -/
theorem cp_keeps_tail : main calm [1] (some [2, 3]) = (0, some [1, 3]) := by
  rw [main, copyLoop_next rfl rfl, copyLoop_end rfl]
  rfl

end Xv6.Cp
