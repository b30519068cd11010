import Xv6.Shell.Grammar

/-! # gettoken and peek against the terminals of the line -/

namespace Xv6.Shell

def Terminal.ret : Terminal → UInt8
  | bar => byte '|'
  | left => byte '('
  | right => byte ')'
  | semi => byte ';'
  | amp => byte '&'
  | arrow .input => byte '<'
  | arrow .output => byte '>'
  | arrow .append => byte '+'
  | word _ => byte 'a'

/-- The symbol a terminal starts with. -/
def Terminal.sign : Terminal → Option UInt8
  | arrow .append => some (byte '>')
  | word _ => none
  | t => some t.ret

variable {t : Terminal} {b : List UInt8} {s q ps : Nat} {ts : List Terminal}

theorem symbol_ret {c : UInt8} (h : symbol c = some t) :
    t.ret = c ∧ t.sign = some c ∧ t ≠ .arrow .append := by
  unfold symbol at h
  split_ifs at h <;> cases h <;> subst c <;> decide

def rest (b : List UInt8) (s : Nat) : List Terminal := lex s ((text b).drop s)

theorem strlen_eq (b : List UInt8) : strlen b = (text b).length := rfl

theorem char_text (b : List UInt8) (h : s < strlen b) :
    (text b)[s]? = some (char b s) := by
  have ht : (text b)[s]? = b[s]? := by
    conv_rhs => rw [← List.takeWhile_append_dropWhile (p := (· != 0)) (l := b)]
    rw [List.getElem?_append_left h]
    rfl
  rw [strlen_eq] at h
  rw [List.getElem?_eq_getElem h] at ht ⊢
  rw [char, List.getD_eq_getElem?_getD, ← ht, Option.getD_some]

theorem char_ne_zero (b : List UInt8) (h : s < strlen b) : char b s ≠ 0 := by
  have hmem := List.mem_of_getElem? (char_text b h)
  have hne := List.mem_takeWhile_imp hmem
  simpa using hne

theorem drop_text (b : List UInt8) (h : s < strlen b) :
    (text b).drop s = char b s :: (text b).drop (s + 1) := by
  rw [strlen_eq] at h
  rw [List.drop_eq_getElem_cons h]
  congr 1
  have ht := char_text b h
  rw [List.getElem?_eq_getElem h] at ht
  exact Option.some.inj ht

theorem char_strlen (b : List UInt8) : char b (strlen b) = 0 := by
  have hget : b[strlen b]? = (b.dropWhile (· != 0))[0]? := by
    rw [drop_dropWhile, List.getElem?_drop]
    rfl
  rw [char, List.getD_eq_getElem?_getD, hget]
  cases hd : b.dropWhile (· != 0) with
  | nil => rfl
  | cons c l =>
    have h := List.head?_dropWhile_not (· != 0) b
    rw [hd] at h
    simpa using h

theorem drop_strlen (b : List UInt8) : (text b).drop (strlen b) = [] := List.drop_length

theorem skip_eq (test : UInt8 → Bool) (n s : Nat) (hs : s ≤ strlen b) (hn : strlen b - s ≤ n) :
    skip b (strlen b) test n s = s + (((text b).drop s).takeWhile test).length := by
  induction n generalizing s with
  | zero =>
    have he : s = strlen b := by omega
    rw [List.drop_of_length_le (Nat.le_of_eq (he ▸ rfl))]
    rfl
  | succ n ih =>
    rw [skip]
    rcases Nat.lt_or_eq_of_le hs with hlt | rfl
    · rw [drop_text b hlt]
      by_cases ht : test (char b s)
      · rw [if_pos ⟨hlt, ht⟩, ih (s + 1) hlt (by omega), List.takeWhile_cons_of_pos ht,
          List.length_cons]
        omega
      · rw [if_neg (fun h => ht h.2), List.takeWhile_cons_of_neg ht]
        rfl
    · rw [if_neg (fun h => Nat.lt_irrefl _ h.1), drop_strlen]
      rfl

theorem skip_le (test : UInt8 → Bool) (hs : s ≤ strlen b) :
    skip b (strlen b) test (strlen b - s) s ≤ strlen b := by
  rw [skip_eq test _ s hs (Nat.le_refl _)]
  have h := (List.takeWhile_prefix test (l := (text b).drop s)).length_le
  rw [List.length_drop, ← strlen_eq] at h
  omega

theorem drop_skip (test : UInt8 → Bool) (hs : s ≤ strlen b) :
    (text b).drop (skip b (strlen b) test (strlen b - s) s) = ((text b).drop s).dropWhile test := by
  rw [skip_eq test _ s hs (Nat.le_refl _), drop_dropWhile, List.drop_drop]

theorem lex_space (i : Nat) (l : List UInt8) :
    lex (i + (l.takeWhile (strchr whitespace)).length) (l.dropWhile (strchr whitespace)) =
      lex i l := by
  induction l generalizing i with
  | nil => rfl
  | cons c l ih =>
    by_cases hc : strchr whitespace c
    · rw [List.takeWhile_cons_of_pos hc, List.dropWhile_cons_of_pos hc, List.length_cons,
        Nat.add_comm _ 1, ← Nat.add_assoc, ih (i + 1)]
      conv_rhs => rw [lex, if_pos (List.contains_iff_mem.mp hc)]
    · rw [List.takeWhile_cons_of_neg hc, List.dropWhile_cons_of_neg hc]
      rfl

theorem rest_skipSpace (hs : s ≤ strlen b) :
    rest b (skipSpace b (strlen b) s) = rest b s := by
  rw [rest, skipSpace, drop_skip _ hs, skip_eq _ _ s hs (Nat.le_refl _), lex_space]
  rfl

theorem skipSpace_le (hs : s ≤ strlen b) : skipSpace b (strlen b) s ≤ strlen b :=
  skip_le _ hs

/-- The byte after white space is not white space. -/
theorem char_skipSpace (hs : s ≤ strlen b)
    (h : skipSpace b (strlen b) s < strlen b) :
    char b (skipSpace b (strlen b) s) ∉ whitespace := by
  intro hc
  have hd := drop_skip (strchr whitespace) hs
  rw [← skipSpace, drop_text b h] at hd
  have hnot := List.head?_dropWhile_not (strchr whitespace) ((text b).drop s)
  rw [← hd] at hnot
  simp only [List.head?_cons] at hnot
  rw [strchr, List.contains_iff_mem.mpr hc] at hnot
  exact absurd hnot (by decide)

theorem rest_strlen (b : List UInt8) : rest b (strlen b) = [] := by
  rw [rest, drop_strlen, lex]

/-- The terminal at a byte that is not white space. -/
theorem rest_ne_nil (hq : q < strlen b) (hw : char b q ∉ whitespace) : rest b q ≠ [] := by
  rw [rest, drop_text b hq, lex]
  split_ifs
  · exact List.cons_ne_nil _ _
  · cases symbol (char b q) <;> exact List.cons_ne_nil _ _

/-- The byte after `q` is the head of what follows it. -/
theorem char_succ (hq : q < strlen b) {c : UInt8} (hc : c ≠ 0) :
    char b (q + 1) = c ↔ ((text b).drop (q + 1)).head? = some c := by
  rcases Nat.lt_or_eq_of_le (show q + 1 ≤ _ from hq) with hlt | he
  · rw [drop_text b hlt, List.head?_cons, Option.some.injEq]
  · rw [he, char_strlen, drop_strlen]
    simp [Ne.symm hc]

theorem scan_append (hc : char b q = byte '>') (hn : char b (q + 1) = byte '>') :
    scan b (strlen b) q = (byte '+', q + 2) := by
  rw [scan, if_neg (by rw [hc]; decide), if_neg (by rw [hc]; decide), if_pos hc, if_pos hn]

theorem symbol_single {c : UInt8} (h : symbol c = some t) (hc : c ≠ byte '>') :
    c ∈ ['|', '(', ')', ';', '&', '<'].map byte := by
  unfold symbol at h
  split_ifs at h <;> simp_all

theorem scan_symbol (ht : symbol (char b q) = some t)
    (hn : ¬ (char b q = byte '>' ∧ char b (q + 1) = byte '>')) :
    scan b (strlen b) q = (char b q, q + 1) := by
  have hz : char b q ≠ 0 := by
    intro h
    rw [h] at ht
    cases ht
  rw [scan, if_neg hz]
  by_cases hc : char b q = byte '>'
  · rw [if_neg (by rw [hc]; decide), if_pos hc, if_neg (fun h => hn ⟨hc, h⟩), hc]
  · rw [if_pos (symbol_single ht hc)]

theorem scan_word (hq : q < strlen b) (ht : symbol (char b q) = none) :
    scan b (strlen b) q = (byte 'a', skip b (strlen b) inWord (strlen b - q) q) := by
  have hs : ∀ c ∈ ['|', '(', ')', ';', '&', '<'].map byte, symbol c ≠ none := by
    decide +kernel
  have hgt : symbol (byte '>') ≠ none := by
    decide +kernel
  rw [scan, if_neg (char_ne_zero b hq), if_neg, if_neg]
  · intro h
    exact hgt (h ▸ ht)
  · intro h
    exact hs _ h ht

/-- White space up to the NUL is all that is left where no terminal is. -/
theorem skipSpace_end (hps : ps ≤ strlen b) :
    skipSpace b (strlen b) ps = strlen b ↔ rest b ps = [] := by
  rw [← rest_skipSpace hps]
  constructor
  · intro h
    rw [h, rest_strlen]
  · intro h
    apply Nat.le_antisymm (skipSpace_le hps)
    by_contra hlt
    exact rest_ne_nil (Nat.lt_of_not_le hlt) (char_skipSpace hps (Nat.lt_of_not_le hlt)) h

/-- The switch of `gettoken` reads one terminal. -/
theorem scan_rest (hq : q < strlen b)
    (hw : char b q ∉ whitespace) (h : rest b q = t :: ts) :
    (scan b (strlen b) q).1 = t.ret ∧ rest b (scan b (strlen b) q).2 = ts ∧
      (scan b (strlen b) q).2 ≤ strlen b ∧ ∀ w, t = .word w → w = ⟨q, (scan b (strlen b) q).2⟩ := by
  rw [rest, drop_text b hq, lex, if_neg hw] at h
  have hnext := char_succ hq (c := byte '>') (by decide)
  by_cases happ : char b q = byte '>' ∧ char b (q + 1) = byte '>'
  · rw [if_pos ⟨happ.1, hnext.mp happ.2⟩] at h
    cases h
    rw [scan_append happ.1 happ.2]
    have hlt : q + 1 < strlen b := by
      by_contra hge
      have he : q + 1 = strlen b := by omega
      rw [he, char_strlen] at happ
      exact absurd happ.2 (by decide)
    refine ⟨rfl, ?_, hlt, fun w hw => by cases hw⟩
    rw [rest, List.tail_drop]
  · rw [if_neg (fun h => happ ⟨h.1, hnext.mpr h.2⟩)] at h
    cases ht : symbol (char b q) with
    | some u =>
      rw [ht] at h
      cases h
      rw [scan_symbol ht happ]
      refine ⟨(symbol_ret ht).1.symm, rfl, hq, fun w hw => ?_⟩
      exact absurd (hw ▸ ht) (symbol_ne_word _ w)
    | none =>
      rw [ht] at h
      cases h
      have hin := inWord_of_symbol_none hw ht
      have hskip : skip b (strlen b) inWord (strlen b - q) q =
          q + 1 + (((text b).drop (q + 1)).takeWhile inWord).length := by
        rw [skip_eq inWord _ q hq.le (Nat.le_refl _), drop_text b hq,
          List.takeWhile_cons_of_pos hin, List.length_cons]
        omega
      rw [scan_word hq ht]
      refine ⟨rfl, ?_, skip_le inWord hq.le, fun w hw => ?_⟩
      · rw [rest, drop_skip inWord hq.le, hskip, drop_text b hq, List.dropWhile_cons_of_pos hin]
      · cases hw
        rw [hskip]

theorem gettoken_nil (hps : ps ≤ strlen b) (h : rest b ps = []) :
    (gettoken b (strlen b) ps).ret = 0 ∧ rest b (gettoken b (strlen b) ps).ps = [] ∧
      (gettoken b (strlen b) ps).ps ≤ strlen b := by
  have hq := (skipSpace_end hps).mpr h
  have hscan : scan b (strlen b) (strlen b) = (0, strlen b) := by
    rw [scan, if_pos (char_strlen b)]
  rw [gettoken, hq, hscan]
  exact ⟨rfl, (rest_skipSpace (Nat.le_refl _)).trans (rest_strlen b), skipSpace_le (Nat.le_refl _)⟩

theorem gettoken_cons (hps : ps ≤ strlen b)
    (h : rest b ps = t :: ts) :
    (gettoken b (strlen b) ps).ret = t.ret ∧ rest b (gettoken b (strlen b) ps).ps = ts ∧
      (gettoken b (strlen b) ps).ps ≤ strlen b ∧
      ∀ w, t = .word w → w = ⟨(gettoken b (strlen b) ps).q, (gettoken b (strlen b) ps).eq⟩ := by
  rw [← rest_skipSpace hps] at h
  have hq : skipSpace b (strlen b) ps < strlen b := by
    apply Nat.lt_of_le_of_ne (skipSpace_le hps)
    intro he
    rw [he, rest_strlen] at h
    cases h
  obtain ⟨hret, hts, hle, hword⟩ := scan_rest hq (char_skipSpace hps hq) h
  exact ⟨hret, (rest_skipSpace hle).trans hts, skipSpace_le hle, hword⟩

/-- Whether one of `toks` is the next terminal. -/
def nextIn (toks : List UInt8) : List Terminal → Bool
  | [] => false
  | t :: _ => t.sign.any (strchr toks)

theorem sign_char (hq : q < strlen b) (hw : char b q ∉ whitespace)
    (h : rest b q = t :: ts) :
    t.sign = some (char b q) ∨ t.sign = none ∧ char b q ∉ symbols := by
  rw [rest, drop_text b hq, lex] at h
  split_ifs at h with happ
  · cases h
    rw [happ.1]
    exact .inl rfl
  · cases ht : symbol (char b q) with
    | some u =>
      rw [ht] at h
      cases h
      exact .inl (symbol_ret ht).2.1
    | none =>
      rw [ht] at h
      cases h
      have hin := inWord_of_symbol_none hw ht
      simp only [inWord, strchr] at hin
      exact .inr ⟨rfl, fun hc => by simp [hc] at hin⟩

/-- `peek` looks at the first terminal and takes nothing. -/
theorem peek_spec (hps : ps ≤ strlen b) (toks : List UInt8) (ht : toks ⊆ symbols) :
    (peek b (strlen b) ps toks).2 = nextIn toks (rest b ps) ∧
      rest b (peek b (strlen b) ps toks).1 = rest b ps ∧
      (peek b (strlen b) ps toks).1 ≤ strlen b := by
  refine ⟨?_, rest_skipSpace hps, skipSpace_le hps⟩
  rw [← rest_skipSpace hps]
  rcases Nat.lt_or_eq_of_le (skipSpace_le hps) with hq | hq
  · have hw := char_skipSpace hps hq
    have hz : (char b (skipSpace b (strlen b) ps) != 0) = true := by
      simpa using char_ne_zero b hq
    rw [peek, hz]
    cases hr : rest b (skipSpace b (strlen b) ps) with
    | nil => exact absurd hr (rest_ne_nil hq hw)
    | cons t ts =>
      rcases sign_char hq hw hr with hs | ⟨hs, hn⟩
      · simp [nextIn, hs]
      · have hnot : char b (skipSpace b (strlen b) ps) ∉ toks := fun h => hn (ht h)
        simp [nextIn, hs, strchr, hnot]
  · rw [peek, hq, char_strlen, rest_strlen]
    rfl

theorem peek_eq (hps : ps ≤ strlen b) (toks : List Char)
    (ht : toks.map byte ⊆ symbols) :
    ∃ ps', peek b (strlen b) ps (toks.map byte) = (ps', nextIn (toks.map byte) (rest b ps)) ∧
      rest b ps' = rest b ps ∧ ps' ≤ strlen b := by
  obtain ⟨hnext, hrest, hle⟩ := peek_spec hps _ ht
  exact ⟨_, Prod.ext rfl hnext, hrest, hle⟩

theorem lex_length_le (i : Nat) (l : List UInt8) : (lex i l).length ≤ l.length := by
  induction i, l using lex.induct with
  | case1 i => simp [lex]
  | case2 i c l hc ih =>
    rw [lex, if_pos hc, List.length_cons]
    omega
  | case3 i c l hc happ ih =>
    rw [List.length_tail] at ih
    rw [lex, if_neg hc, if_pos happ, List.length_cons, List.length_cons]
    omega
  | case4 i c l hc happ t ht ih =>
    rw [lex, if_neg hc, if_neg happ, ht, List.length_cons, List.length_cons]
    omega
  | case5 i c l hc happ ht ih =>
    have hle := (List.dropWhile_suffix inWord (l := l)).length_le
    rw [lex, if_neg hc, if_neg happ, ht, List.length_cons, List.length_cons]
    omega

theorem rest_length_le (b : List UInt8) : (rest b 0).length ≤ strlen b := by
  exact lex_length_le 0 (text b)

end Xv6.Shell
