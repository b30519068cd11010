import Mathlib.Data.List.TakeWhile
import Xv6.Shell.Model

/-! # The shell's language

Terminals, how a line splits into them, and the grammar with the tree it assigns.
-/

namespace Xv6.Shell

/-- Redirections. -/
inductive Arrow
  | input
  | output
  | append
deriving DecidableEq, Repr

inductive Terminal
  | bar
  | left
  | right
  | semi
  | amp
  | arrow (a : Arrow)
  | word (w : Word)
deriving DecidableEq, Repr

def symbol (c : UInt8) : Option Terminal :=
  if c = byte '|' then some .bar
  else if c = byte '(' then some .left
  else if c = byte ')' then some .right
  else if c = byte ';' then some .semi
  else if c = byte '&' then some .amp
  else if c = byte '<' then some (.arrow .input)
  else if c = byte '>' then some (.arrow .output)
  else none

/-- The terminals of the text `l`, which starts at position `i`: `>>` is one terminal and a word is
a longest run of bytes that are neither white space nor symbols. -/
def lex (i : Nat) : List UInt8 → List Terminal
  | [] => []
  | c :: l =>
    if c ∈ whitespace then lex (i + 1) l
    else if c = byte '>' ∧ l.head? = some (byte '>') then .arrow .append :: lex (i + 2) l.tail
    else match symbol c with
      | some t => t :: lex (i + 1) l
      | none =>
        .word ⟨i, i + 1 + (l.takeWhile inWord).length⟩ ::
          lex (i + 1 + (l.takeWhile inWord).length) (l.dropWhile inWord)
termination_by l => l.length
decreasing_by
  · simp
  · simp only [List.length_tail, List.length_cons]; omega
  · simp
  · have h := (List.dropWhile_suffix inWord (l := l)).length_le
    simp only [List.length_cons]
    omega

def text (b : List UInt8) : List UInt8 := b.takeWhile (· != 0)

structure Redir where
  arrow : Arrow
  file : Word
deriving DecidableEq, Repr

def Redir.terminals (r : Redir) : List Terminal := [.arrow r.arrow, .word r.file]

def Redir.mode (r : Redir) : Nat :=
  match r.arrow with
  | .input => O_RDONLY
  | .output => O_WRONLY ||| O_CREATE ||| O_TRUNC
  | .append => O_WRONLY ||| O_CREATE

def Redir.fd (r : Redir) : Nat :=
  match r.arrow with
  | .input => 0
  | .output => 1
  | .append => 1

def Redir.around (cmd : Cmd) (r : Redir) : Cmd := .redir cmd r.file r.mode r.fd

/-- A word of a command and the redirections after it. -/
structure Arg where
  word : Word
  redirs : List Redir
deriving DecidableEq, Repr

def Arg.terminals (a : Arg) : List Terminal := .word a.word :: a.redirs.flatMap Redir.terminals

/-- The redirections `rs` around `cmd`, the first one innermost. -/
def wrap (cmd : Cmd) (rs : List Redir) : Cmd := rs.foldl Redir.around cmd

def background : Nat → Cmd → Cmd
  | 0, cmd => cmd
  | n + 1, cmd => background n (.back cmd)

inductive Nonterminal
  | line
  | pipe
  | exec
deriving DecidableEq, Repr

/-- `Derives x ts cmd`: the nonterminal `x` derives the terminals `ts` with the tree `cmd`.

    line ::= pipe '&'* [';' line]
    pipe ::= exec ['|' pipe]
    exec ::= '(' line ')' redir* | redir* (word redir*)*      with fewer than MAXARGS words
    redir ::= ('<' | '>' | '>>') word
-/
inductive Derives : Nonterminal → List Terminal → Cmd → Prop
  | line {ts : List Terminal} {cmd : Cmd} (n : Nat) (h : Derives .pipe ts cmd) :
      Derives .line (ts ++ List.replicate n .amp) (background n cmd)
  | list {ts us : List Terminal} {left right : Cmd} (n : Nat) (hl : Derives .pipe ts left)
      (hr : Derives .line us right) :
      Derives .line (ts ++ (List.replicate n .amp ++ .semi :: us))
        (.list (background n left) right)
  | exec {ts : List Terminal} {cmd : Cmd} (h : Derives .exec ts cmd) : Derives .pipe ts cmd
  | pipe {ts us : List Terminal} {left right : Cmd} (hl : Derives .exec ts left)
      (hr : Derives .pipe us right) : Derives .pipe (ts ++ .bar :: us) (.pipe left right)
  | block {ts : List Terminal} {cmd : Cmd} (rs : List Redir) (h : Derives .line ts cmd) :
      Derives .exec (.left :: (ts ++ .right :: rs.flatMap Redir.terminals)) (wrap cmd rs)
  | simple (rs : List Redir) (args : List Arg) (h : args.length < MAXARGS) :
      Derives .exec (rs.flatMap Redir.terminals ++ args.flatMap Arg.terminals)
        (wrap (.exec (args.map Arg.word)) (rs ++ args.flatMap Arg.redirs))

def Cmd.words : Cmd → List Word
  | exec argv => argv
  | redir cmd file _ _ => cmd.words ++ [file]
  | pipe left right => left.words ++ right.words
  | list left right => left.words ++ right.words
  | back cmd => cmd.words

theorem words_wrap (cmd : Cmd) (rs : List Redir) {w : Word} (h : w ∈ (wrap cmd rs).words) :
    w ∈ cmd.words ∨ ∃ r ∈ rs, r.file = w := by
  induction rs generalizing cmd with
  | nil => exact .inl h
  | cons r rs ih =>
    rcases ih (r.around cmd) h with h | ⟨s, hs, hw⟩
    · rcases List.mem_append.mp h with h | h
      · exact .inl h
      · exact .inr ⟨r, List.mem_cons_self, (List.mem_singleton.mp h).symm⟩
    · exact .inr ⟨s, List.mem_cons_of_mem r hs, hw⟩

theorem words_background (n : Nat) (cmd : Cmd) : (background n cmd).words = cmd.words := by
  induction n generalizing cmd with
  | zero => rfl
  | succ n ih => exact ih (.back cmd)

theorem file_mem {rs : List Redir} {r : Redir} (h : r ∈ rs) :
    .word r.file ∈ rs.flatMap Redir.terminals :=
  List.mem_flatMap.mpr ⟨r, h, by simp [Redir.terminals]⟩

/-- The strings of a tree are words of the line. -/
theorem Derives.word_mem {x : Nonterminal} {ts : List Terminal} {cmd : Cmd} (h : Derives x ts cmd)
    {w : Word} (hw : w ∈ cmd.words) : .word w ∈ ts := by
  induction h with
  | line n _ ih =>
    rw [words_background] at hw
    exact List.mem_append_left _ (ih hw)
  | list n _ _ ihl ihr =>
    rcases List.mem_append.mp hw with hw | hw
    · rw [words_background] at hw
      exact List.mem_append_left _ (ihl hw)
    · have h := List.mem_cons_of_mem Terminal.semi (ihr hw)
      exact List.mem_append_right _ (List.mem_append_right _ h)
  | exec _ ih => exact ih hw
  | pipe _ _ ihl ihr =>
    rcases List.mem_append.mp hw with hw | hw
    · exact List.mem_append_left _ (ihl hw)
    · exact List.mem_append_right _ (List.mem_cons_of_mem _ (ihr hw))
  | block rs _ ih =>
    apply List.mem_cons_of_mem
    rcases words_wrap _ rs hw with hw | ⟨r, hr, rfl⟩
    · exact List.mem_append_left _ (ih hw)
    · exact List.mem_append_right _ (List.mem_cons_of_mem _ (file_mem hr))
  | simple rs args _ =>
    rcases words_wrap _ _ hw with hw | ⟨r, hr, rfl⟩
    · obtain ⟨a, ha, rfl⟩ := List.mem_map.mp hw
      exact List.mem_append_right _ (List.mem_flatMap.mpr ⟨a, ha, List.mem_cons_self⟩)
    · rcases List.mem_append.mp hr with hr | hr
      · exact List.mem_append_left _ (file_mem hr)
      · obtain ⟨a, ha, hr⟩ := List.mem_flatMap.mp hr
        have h := List.mem_cons_of_mem (Terminal.word a.word) (file_mem hr)
        exact List.mem_append_right _ (List.mem_flatMap.mpr ⟨a, ha, h⟩)

/-! ## Where the words of a text lie -/

/-- `w` is a longest run of word bytes in `l`. -/
structure IsRun (l : List UInt8) (w : Word) : Prop where
  lt : w.start < w.stop
  le : w.stop ≤ l.length
  inside : ∀ (k : Nat) (c : UInt8), w.start ≤ k → k < w.stop → l[k]? = some c → inWord c
  after : ∀ c : UInt8, l[w.stop]? = some c → ¬ inWord c

variable {l : List UInt8} {c : UInt8}

/-- The end of one run is not inside another. -/
theorem IsRun.stop_outside {v w : Word} (hv : IsRun l v) (hw : IsRun l w) :
    v.stop < w.start ∨ w.stop ≤ v.stop := by
  by_contra h
  have hlt : v.stop < l.length := by have := hw.le; omega
  have hget := List.getElem?_eq_getElem hlt
  exact hv.after _ hget (hw.inside v.stop _ (by omega) (by omega) hget)

theorem inWord_of_symbol_none (hs : c ∉ whitespace) (h : symbol c = none) :
    inWord c := by
  unfold symbol at h
  split_ifs at h
  simp_all [inWord, strchr, symbols]

theorem symbol_ne_word (c : UInt8) (w : Word) : symbol c ≠ some (.word w) := by
  unfold symbol
  split_ifs <;> simp

theorem inWord_of_lt_takeWhile {k : Nat}
    (hk : k < (l.takeWhile inWord).length) (h : l[k]? = some c) : inWord c := by
  have hpre : (l.takeWhile inWord)[k]? = l[k]? := by
    conv_rhs => rw [← List.takeWhile_append_dropWhile (p := inWord) (l := l)]
    rw [List.getElem?_append_left hk]
  apply List.mem_takeWhile_imp
  apply List.mem_of_getElem?
  rw [hpre, h]

theorem not_inWord_after_takeWhile
    (h : l[(l.takeWhile inWord).length]? = some c) : ¬ inWord c := by
  induction l with
  | nil => simp at h
  | cons d l ih =>
    by_cases hd : inWord d
    · rw [List.takeWhile_cons_of_pos hd] at h
      exact ih (by simpa using h)
    · rw [List.takeWhile_cons_of_neg hd] at h
      simp only [List.length_nil, List.getElem?_cons_zero, Option.some.injEq] at h
      exact h ▸ hd

theorem drop_succ_of_drop {l m : List UInt8} {i : Nat} (h : l.drop i = c :: m) :
    l.drop (i + 1) = m := by
  rw [← List.tail_drop, h, List.tail_cons]

theorem drop_dropWhile (p : UInt8 → Bool) (l : List UInt8) :
    l.dropWhile p = l.drop (l.takeWhile p).length := by
  conv_rhs => rw [← List.takeWhile_append_dropWhile (p := p) (l := l)]
  rw [List.drop_left']
  rw [List.takeWhile_append_dropWhile]

/-- The word found at `i` is a longest run. -/
theorem isRun_at {l m : List UInt8} {i : Nat} (hd : l.drop i = c :: m)
    (hc : inWord c) : IsRun l ⟨i, i + 1 + (m.takeWhile inWord).length⟩ := by
  have hm := drop_succ_of_drop hd
  have hget (k : Nat) : l[i + 1 + k]? = m[k]? := by rw [← hm, List.getElem?_drop]
  have hlen : (l.drop (i + 1)).length = m.length := by rw [hm]
  have hlt : (l.drop i).length = m.length + 1 := by rw [hd, List.length_cons]
  constructor
  · show i < i + 1 + _
    omega
  · have hle := (List.takeWhile_prefix inWord (l := m)).length_le
    rw [List.length_drop] at hlen hlt
    show i + 1 + _ ≤ l.length
    omega
  · intro k d hk hk' h
    rcases Nat.lt_or_ge i k with hik | hik
    · obtain ⟨j, rfl⟩ : ∃ j, k = i + 1 + j := ⟨k - (i + 1), by omega⟩
      rw [hget j] at h
      exact inWord_of_lt_takeWhile (Nat.lt_of_add_lt_add_left hk') h
    · obtain rfl : k = i := Nat.le_antisymm hik hk
      have h0 : (l.drop k)[0]? = some c := by rw [hd]; rfl
      rw [List.getElem?_drop, Nat.add_zero, h] at h0
      cases h0
      exact hc
  · intro d h
    rw [hget] at h
    exact not_inWord_after_takeWhile h

/-- Every word that `lex` finds is a longest run of the whole text. -/
theorem lex_isRun (l : List UInt8) (i : Nat) (m : List UInt8) (hd : l.drop i = m) :
    ∀ w, .word w ∈ lex i m → IsRun l w := by
  induction i, m using lex.induct with
  | case1 i =>
    intro w hw
    simp [lex] at hw
  | case2 i c m hc ih =>
    rw [lex, if_pos hc]
    exact ih (drop_succ_of_drop hd)
  | case3 i c m hc happ ih =>
    rw [lex, if_neg hc, if_pos happ]
    intro w hw
    apply ih _ w (by simpa using hw)
    rw [← drop_succ_of_drop hd, List.tail_drop]
  | case4 i c m hc happ t ht ih =>
    rw [lex, if_neg hc, if_neg happ, ht]
    intro w hw
    rcases List.mem_cons.mp hw with rfl | hw
    · exact absurd ht (symbol_ne_word c w)
    · exact ih (drop_succ_of_drop hd) w hw
  | case5 i c m hc happ ht ih =>
    rw [lex, if_neg hc, if_neg happ, ht]
    intro w hw
    rcases List.mem_cons.mp hw with hw | hw
    · cases hw
      exact isRun_at hd (inWord_of_symbol_none hc ht)
    · apply ih _ w hw
      rw [drop_dropWhile, ← drop_succ_of_drop hd, List.drop_drop]

end Xv6.Shell
