import Mathlib.Data.List.TakeWhile
import Xv6.User.Match

namespace Xv6.Grep

def newline : UInt8 := 10

def BUFSIZE : Nat := 1024

/-- strchr(p, '\n'): what is before the newline and what is after it. -/
def strchr : Text → Option (Text × Text)
  | [] => none
  | x :: p =>
    if x = 0 then none
    else if x = newline then some ([], p)
    else (strchr p).map fun (line, rest) => (x :: line, rest)

theorem strchr_length {p line rest : Text} (h : strchr p = some (line, rest)) :
    rest.length < p.length := by
  induction p generalizing line with
  | nil => cases h
  | cons x p ih =>
    rw [strchr] at h
    split_ifs at h
    · cases h
      simp
    · obtain ⟨⟨line', rest'⟩, h', he⟩ := Option.map_eq_some_iff.mp h
      cases he
      exact (ih h').trans (by simp)

/-- The loop over the lines in the buffer: what is written, and what is left at p. -/
def lineLoop (pattern p : Text) : Text × Text :=
  match _h : strchr p with
  | none => ([], p)
  | some (line, rest) =>
    let (out, left) := lineLoop pattern rest
    ((if matchText pattern line then line ++ [newline] else []) ++ out, left)
termination_by p.length
decreasing_by exact strchr_length _h

/-- The chunks still to come, of which the first has been read in part. -/
def unread (chunk : Text) (more : List Text) : List Text :=
  if chunk = [] then more else chunk :: more

theorem unread_flatten (chunk : Text) (more : List Text) :
    (unread chunk more).flatten = chunk ++ more.flatten := by
  rw [unread]
  split
  · simp [*]
  · rfl

/-- The loop over the reads, with what is in the buffer and the chunks that are to come: a read
takes as much of the first as there is room for. -/
def readLoop (pattern buf : Text) : List Text → Text
  | [] => []
  | chunk :: more =>
    let n := min (BUFSIZE - buf.length - 1) chunk.length
    if n = 0 then []
    else
      let (out, left) := lineLoop pattern (buf ++ chunk.take n)
      out ++ readLoop pattern left (unread (chunk.drop n) more)
termination_by chunks => chunks.flatten.length
decreasing_by
  simp only [unread_flatten, List.length_append, List.length_drop, List.flatten_cons]
  omega

/-- The bytes grep writes for an input that comes in these chunks. -/
def grep (pattern : Text) (chunks : List Text) : Text := readLoop pattern [] chunks

/-- The lines of an input, each with its newline; the last may have none. -/
def lines : Text → List Text
  | [] => []
  | x :: input =>
    if x = newline then [newline] :: lines input
    else match lines input with
      | [] => [[x]]
      | line :: more => (x :: line) :: more

def selected (pattern line : Text) : Bool := matchText pattern (line.takeWhile (· ≠ newline))

def fits (line : Text) : Bool := line.getLast? == some newline && line.length < BUFSIZE

def matching (pattern : Text) (ls : List Text) : Text := (ls.filter (selected pattern)).flatten

/-- The lines grep gets to see. -/
def seen (input : Text) : List Text := (lines input).takeWhile fits

theorem strchr_some {p line rest : Text} (h : strchr p = some (line, rest)) :
    p = line ++ newline :: rest ∧ newline ∉ line := by
  induction p generalizing line with
  | nil => cases h
  | cons x p ih =>
    rw [strchr] at h
    split_ifs at h with h0 hx
    · cases h
      simp [hx]
    · obtain ⟨⟨line', rest'⟩, h', he⟩ := Option.map_eq_some_iff.mp h
      cases he
      obtain ⟨hp, hline⟩ := ih h'
      exact ⟨by rw [hp]; rfl, by simp [hline, Ne.symm hx]⟩

theorem strchr_none {p : Text} (hp : 0 ∉ p) (h : strchr p = none) : newline ∉ p := by
  induction p with
  | nil => simp
  | cons x p ih =>
    rw [List.mem_cons, not_or] at hp ⊢
    rw [strchr, if_neg (Ne.symm hp.1)] at h
    split_ifs at h with hx
    exact ⟨Ne.symm hx, ih hp.2 (Option.map_eq_none_iff.mp h)⟩

theorem lines_whole {line : Text} (h : newline ∉ line) (t : Text) :
    lines (line ++ newline :: t) = (line ++ [newline]) :: lines t := by
  induction line with
  | nil => simp [lines]
  | cons x line ih =>
    rw [List.mem_cons, not_or] at h
    rw [List.cons_append, lines, if_neg (Ne.symm h.1), ih h.2]
    rfl

theorem lines_part {part : Text} (h : newline ∉ part) (hne : part ≠ []) (t : Text) :
    ∃ s ls, lines (part ++ t) = (part ++ s) :: ls ∧ (t = [] → s = []) := by
  induction part with
  | nil => exact absurd rfl hne
  | cons x part ih =>
    rw [List.mem_cons, not_or] at h
    rw [List.cons_append, lines, if_neg (Ne.symm h.1)]
    by_cases hp : part = []
    · subst hp
      rw [List.nil_append]
      cases t with
      | nil => exact ⟨[], [], rfl, fun _ => rfl⟩
      | cons y t =>
        cases lines (y :: t) with
        | nil => exact ⟨[], [], rfl, fun _ => rfl⟩
        | cons s ls => exact ⟨s, ls, rfl, by simp⟩
    · obtain ⟨s, ls, he, hs⟩ := ih h.2 hp
      rw [he]
      exact ⟨s, ls, rfl, hs⟩

/-- Nothing is seen from a part of a line on that is the last, or too long. -/
theorem seen_part {part : Text} (h : newline ∉ part) {t : Text}
    (hstop : t = [] ∨ BUFSIZE ≤ part.length + 1) : seen (part ++ t) = [] := by
  by_cases hp : part = []
  · subst hp
    have ht : t = [] := hstop.resolve_right (by decide)
    rw [ht]
    rfl
  obtain ⟨s, ls, he, hs⟩ := lines_part h hp t
  rw [seen, he, List.takeWhile_cons_of_neg]
  intro hfit
  rw [fits, Bool.and_eq_true, beq_iff_eq, decide_eq_true_iff, List.length_append] at hfit
  by_cases hnil : s = []
  · rw [hnil, List.append_nil] at hfit
    exact h (List.mem_of_getLast? hfit.1)
  · have := List.length_pos_iff.mpr hnil
    have := hstop.resolve_left fun ht => hnil (hs ht)
    omega

theorem seen_whole {line : Text} (h : newline ∉ line) (hlen : line.length + 1 < BUFSIZE) (t : Text) :
    seen (line ++ newline :: t) = (line ++ [newline]) :: seen t := by
  rw [seen, lines_whole h, List.takeWhile_cons_of_pos]
  · rfl
  · simp [fits, hlen]

theorem selected_whole (pattern : Text) {line : Text} (h : newline ∉ line) :
    selected pattern (line ++ [newline]) = matchText pattern line := by
  rw [selected, List.takeWhile_append_of_pos]
  · simp
  · intro x hx
    simp only [decide_not, Bool.not_eq_eq_eq_not, Bool.not_true, decide_eq_false_iff_not]
    rintro rfl
    exact h hx

/-- What the loop over the lines writes, and where it stops. -/
theorem lineLoop_spec (pattern p : Text) (hp : 0 ∉ p) (hlen : p.length < BUFSIZE) :
    newline ∉ (lineLoop pattern p).2 ∧ (lineLoop pattern p).2 <:+ p ∧
      ∀ t, matching pattern (seen (p ++ t)) = (lineLoop pattern p).1 ++
        matching pattern (seen ((lineLoop pattern p).2 ++ t)) := by
  fun_induction lineLoop pattern p with
  | case1 p h => exact ⟨strchr_none hp h, List.suffix_refl _, fun t => rfl⟩
  | case2 p line rest h out left hrest ih =>
    obtain ⟨rfl, hline⟩ := strchr_some h
    rw [List.length_append, List.length_cons] at hlen
    obtain ⟨hleft, hsuffix, hout⟩ := ih (fun h0 => hp (by simp [h0])) (by omega)
    rw [hrest] at hleft hsuffix hout
    refine ⟨hleft, hsuffix.trans ?_, fun t => ?_⟩
    · exact ⟨line ++ [newline], by simp⟩
    · rw [List.append_assoc, List.cons_append, seen_whole hline (by omega), matching,
        List.filter_cons, selected_whole pattern hline, List.append_assoc, ← hout]
      split <;> rfl

/-- What the loop over the reads writes does not depend on the chunks. -/
theorem readLoop_eq (pattern buf : Text) (chunks : List Text) (hchunk : [] ∉ chunks)
    (h0 : 0 ∉ buf ++ chunks.flatten) (hbuf : newline ∉ buf) (hlen : buf.length < BUFSIZE) :
    readLoop pattern buf chunks = matching pattern (seen (buf ++ chunks.flatten)) := by
  fun_induction readLoop pattern buf chunks with
  | case1 buf =>
    rw [List.flatten_nil, seen_part hbuf (.inl rfl)]
    rfl
  | case2 buf chunk more n hn =>
    have hpos : 0 < chunk.length := List.length_pos_iff.mpr fun h => hchunk (by simp [h])
    rw [seen_part hbuf (.inr (by omega))]
    rfl
  | case3 buf chunk more n hn out left hloop ih =>
    have hsplit : buf ++ (chunk :: more).flatten =
        buf ++ chunk.take n ++ (chunk.drop n ++ more.flatten) := by
      simp [← List.append_assoc (chunk.take n)]
    rw [hsplit, List.mem_append, not_or] at h0
    obtain ⟨hleft, hsuffix, hout⟩ := lineLoop_spec pattern (buf ++ chunk.take n) h0.1
      (by rw [List.length_append, List.length_take]; omega)
    simp only [hloop] at hleft hsuffix hout
    rw [hsplit, hout, ← unread_flatten, ih]
    · rw [unread]
      split
      · exact fun h => hchunk (by simp [h])
      · rw [List.mem_cons, not_or]
        exact ⟨Ne.symm ‹_›, fun h => hchunk (by simp [h])⟩
    · rw [unread_flatten, List.mem_append, not_or]
      exact ⟨fun h => h0.1 (hsuffix.subset h), h0.2⟩
    · exact hleft
    · have := hsuffix.length_le
      rw [List.length_append, List.length_take] at this
      omega

theorem lines_ne_nil (input : Text) : [] ∉ lines input := by
  induction input with
  | nil => simp [lines]
  | cons x input ih =>
    rw [lines]
    split
    · simpa using ih
    · cases h : lines input with
      | nil => simp
      | cons line more =>
        simp_all

/-- grep writes the lines it sees that match, however the input is cut into chunks: these are all
that match unless one does from the first line on that has no newline or does not fit the buffer. -/
theorem grep_filters_iff (pattern : Text) (chunks : List Text) (hchunk : [] ∉ chunks)
    (h0 : 0 ∉ chunks.flatten) :
    grep pattern chunks = matching pattern (seen chunks.flatten) ∧
      (grep pattern chunks = matching pattern (lines chunks.flatten) ↔
        ∀ line ∈ (lines chunks.flatten).dropWhile fits, selected pattern line = false) := by
  have heq : grep pattern chunks = matching pattern (seen chunks.flatten) :=
    readLoop_eq pattern [] chunks hchunk h0 (by simp) (by decide)
  refine ⟨heq, ?_⟩
  have hsplit := List.takeWhile_append_dropWhile (p := fits) (l := lines chunks.flatten)
  generalize hdrop : (lines chunks.flatten).dropWhile fits = drop at hsplit ⊢
  have hne : [] ∉ drop := by
    rw [← hdrop]
    exact fun h => lines_ne_nil _ ((List.dropWhile_sublist fits).subset h)
  rw [heq, ← hsplit, matching, matching, List.filter_append, List.flatten_append, seen,
    List.self_eq_append_right, List.flatten_eq_nil_iff]
  constructor
  · intro h line hl
    by_contra hc
    have := h line (List.mem_filter.mpr ⟨hl, by simpa using hc⟩)
    exact hne (this ▸ hl)
  · intro h line hl
    rw [List.mem_filter] at hl
    exact absurd hl.2 (by simp [h line hl.1])

/-- The lines "a" and "b" for the pattern b, read as "a\nb" and "\n". -/
theorem grep_filters_two :
    grep [98] [[97, 10, 98], [10]] = matching [98] (lines [97, 10, 98, 10]) :=
  (grep_filters_iff [98] [[97, 10, 98], [10]] (by decide) (by decide)).2.mpr (by decide)

/-- A last line without newline is not written. -/
theorem grep_drops_last :
    grep [98] [[98]] = [] ∧ matching [98] (lines [98]) = [98] := by
  refine ⟨(readLoop_eq [98] [] [[98]] ?_ ?_ ?_ ?_).trans ?_, ?_⟩
  all_goals decide

end Xv6.Grep
