import Xv6.Fs.Walk
import Xv6.Fs.Discipline

/-! # Path names

namex takes a path apart with skipelem while it goes from directory to directory. What it returns is
a fold of lookups over the components of the path.
-/

namespace Xv6.Fs

open Xv6.Framework

variable {path name rest : Text} {p : ProcId} {w w' : World} {disk : Nat → Dinode} {i : Nat}

/-! ## Components -/

/-- skipelem called until it returns 0, with the names that it stores. -/
inductive Skips : Text → List Text → Prop
  | done {path : Text} (h : skipelem path = none) : Skips path []
  | next {path name rest : Text} {names : List Text} (h : skipelem path = some (name, rest))
      (hrest : Skips rest names) : Skips path (name :: names)

theorem head_dropWhile {q : UInt8 → Bool} {l s : Text} {c : UInt8} (h : l.dropWhile q = c :: s) :
    q c = false := by
  have hhead := List.head?_dropWhile_not q l
  rw [h] at hhead
  exact hhead

theorem skipelem_length (h : skipelem path = some (name, rest)) : rest.length < path.length := by
  rw [skipelem] at h
  split at h
  · cases h
  rename_i c s hcons
  cases h
  have hc : c ≠ slash := by simpa using head_dropWhile hcons
  have hlen : (c :: s).length ≤ path.length := by
    rw [← hcons]
    exact (List.dropWhile_sublist _).length_le
  have hdrop : (c :: s).dropWhile (· ≠ slash) = s.dropWhile (· ≠ slash) := by
    rw [List.dropWhile_cons, if_pos (by simpa using hc)]
  rw [hdrop]
  have h₁ := (List.dropWhile_sublist (l := s.dropWhile (· ≠ slash)) (· = slash)).length_le
  have h₂ := (List.dropWhile_sublist (l := s) (· ≠ slash)).length_le
  rw [List.length_cons] at hlen
  omega

theorem Skips.elements {names : List Text} (h : Skips path names) :
    ∀ fuel, path.length ≤ fuel → elementsFrom fuel path = names := by
  induction h with
  | done h =>
    intro fuel _
    cases fuel with
    | zero => rfl
    | succ fuel => rw [elementsFrom, h]
  | next h _ ih =>
    intro fuel hle
    have hlt := skipelem_length h
    cases fuel with
    | zero => omega
    | succ fuel =>
      have hrest := ih fuel (by omega)
      simp only [elementsFrom, h, hrest]

/-- The number that dirlookup finds in inode `i`; a file is not traversed. -/
def find (disk : Nat → Dinode) (i : Nat) (name : Text) : Option Nat :=
  if (disk i).type ≠ .dir then none
  else (lookup (disk i).entries name).map (disk i).inumAt

/-- The inode that a list of names leads to, from where the path starts. -/
def World.follow (w : World) (p : ProcId) (path : Text) (names : List Text) : Option Nat :=
  (w.start p path).bind fun i => names.foldlM (find w.disk) i

/-- What namex needs to come to its end: a process with a working directory, room for two inodes in
the table, and names and open files of allocated inodes, with links or open ones. -/
structure World.Ready (w : World) (p : ProcId) : Prop where
  live : (w.proc p).live = true
  cwd : (w.proc p).cwd ≠ none
  room : 2 ≤ w.spare
  safe : w.Safe
  solid : w.Solid

end Xv6.Fs
