import Xv6.Fs.Model
import Xv6.Framework.Returns

namespace Xv6.Fs

open Xv6.Framework

@[irreducible]
def slotsOf (ofile : Fin NOFILE → Option (Fin NFILE)) (f : Fin NFILE) : Nat :=
  ∑ fd, (if ofile fd = some f then 1 else 0)

theorem slotsOf_update (ofile : Fin NOFILE → Option (Fin NFILE)) (fd : Fin NOFILE)
    (x : Option (Fin NFILE)) (f : Fin NFILE) :
    slotsOf (Function.update ofile fd x) f + (if ofile fd = some f then 1 else 0) =
      slotsOf ofile f + (if x = some f then 1 else 0) := by
  have h := sum_update_add ofile (fun _ x => if x = some f then 1 else 0) fd x
  unfold slotsOf
  exact h

theorem slotsOf_pos {fd : Fin NOFILE} {ofile : Fin NOFILE → Option (Fin NFILE)} {f : Fin NFILE}
    (h : ofile fd = some f) : 0 < slotsOf ofile f := by
  have h1 := le_sum_univ (fun fd => if ofile fd = some f then 1 else 0) fd
  unfold slotsOf
  simp only [h, if_true] at h1
  omega

/-- Two descriptors of one process. -/
theorem two_le_slotsOf {fd fd' : Fin NOFILE} {ofile : Fin NOFILE → Option (Fin NFILE)}
    {f : Fin NFILE} (hne : fd' ≠ fd) (h : ofile fd = some f) (h' : ofile fd' = some f) :
    2 ≤ slotsOf ofile f := by
  have h1 := add_le_sum_univ (fun fd => if ofile fd = some f then 1 else 0) hne
  simp only [h, h'] at h1
  unfold slotsOf
  exact h1

end Xv6.Fs
