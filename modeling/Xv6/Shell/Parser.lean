import Xv6.Shell.Completeness

/-! # parsecmd and the strings it leaves -/

namespace Xv6.Shell

def Word.text (b : List UInt8) (w : Word) : List UInt8 := (b.drop w.start).take (w.stop - w.start)

/-- The bytes at `p` are `s` and a NUL. -/
def IsString (b : List UInt8) (p : Nat) (s : List UInt8) : Prop :=
  0 ∉ s ∧ s ++ [0] <+: b.drop p

/-! ## nulterminate -/

/-- The stores at the ends of `ws`. -/
def cut (ws : List Word) (b : List UInt8) : List UInt8 := ws.foldl (fun b w => b.set w.stop 0) b

theorem cut_append (ws vs : List Word) (b : List UInt8) : cut (ws ++ vs) b = cut vs (cut ws b) :=
  List.foldl_append

variable {ws : List Word} {b : List UInt8}

theorem cut_other (b : List UInt8) {k : Nat} (h : ∀ w ∈ ws, w.stop ≠ k) :
    (cut ws b)[k]? = b[k]? := by
  induction ws generalizing b with
  | nil => rfl
  | cons w ws ih =>
    rw [show cut (w :: ws) b = cut ws (b.set w.stop 0) from rfl,
      ih _ (fun v hv => h v (List.mem_cons_of_mem w hv)),
      List.getElem?_set_ne (h w List.mem_cons_self)]

theorem cut_stop (b : List UInt8) {k : Nat} (h : ∃ w ∈ ws, w.stop = k)
    (hk : k < b.length) : (cut ws b)[k]? = some 0 := by
  induction ws generalizing b with
  | nil => obtain ⟨w, hw, -⟩ := h; cases hw
  | cons v ws ih =>
    rw [show cut (v :: ws) b = cut ws (b.set v.stop 0) from rfl]
    by_cases hmem : ∃ w ∈ ws, w.stop = k
    · exact ih _ hmem (by rw [List.length_set]; exact hk)
    · obtain ⟨w, hw, rfl⟩ := h
      rcases List.mem_cons.mp hw with rfl | hw
      · rw [cut_other _ (fun u hu he => hmem ⟨u, hu, he⟩), List.getElem?_set_self hk]
      · exact absurd ⟨w, hw, rfl⟩ hmem

theorem nulterminate_eq (cmd : Cmd) (b : List UInt8) : nulterminate cmd b = cut cmd.words b := by
  induction cmd generalizing b with
  | exec argv => rfl
  | redir cmd file mode fd ih =>
    rw [nulterminate, ih, Cmd.words, cut_append]
    rfl
  | pipe left right ihl ihr => rw [nulterminate, ihl, ihr, Cmd.words, cut_append]
  | list left right ihl ihr => rw [nulterminate, ihl, ihr, Cmd.words, cut_append]
  | back cmd ih => exact ih b

theorem strlen_lt (h : 0 ∈ b) : strlen b < b.length := by
  have hpre : text b <+: b := List.takeWhile_prefix _
  apply Nat.lt_of_le_of_ne hpre.length_le
  intro he
  rw [← hpre.eq_of_length he] at h
  exact absurd (List.mem_takeWhile_imp h) (by decide)

theorem Word.getElem?_text (b : List UInt8) (w : Word) {k : Nat} (hk : k < w.stop - w.start) :
    (w.text b)[k]? = b[w.start + k]? := by
  rw [Word.text, List.getElem?_take_of_lt hk, List.getElem?_drop]

/-- Cutting at the ends of runs leaves every run a string. -/
theorem isString_cut (h0 : 0 ∈ b)
    (hws : ∀ w ∈ ws, IsRun (text b) w) {w : Word} (hw : w ∈ ws) :
    IsString (cut ws b) w.start (w.text b) := by
  have hrun := hws w hw
  have hlt := strlen_lt h0
  have hle : w.stop ≤ strlen b := hrun.le
  have hlen : (w.text b).length = w.stop - w.start := by
    rw [Word.text, List.length_take, List.length_drop]
    omega
  constructor
  · intro hmem
    obtain ⟨k, hk, hget⟩ := List.getElem_of_mem hmem
    rw [hlen] at hk
    have hb := w.getElem?_text b hk
    rw [List.getElem?_eq_getElem (hlen ▸ hk), hget] at hb
    apply char_ne_zero b (s := w.start + k) (by omega)
    rw [char, List.getD_eq_getElem?_getD, ← hb, Option.getD_some]
  · rw [List.prefix_iff_eq_take]
    apply List.ext_getElem?
    intro k
    have hstart := hrun.lt
    rcases Nat.lt_trichotomy k (w.stop - w.start) with hk | hk | hk
    · have hne : ∀ v ∈ ws, v.stop ≠ w.start + k := by
        intro v hv he
        have hout := (hws v hv).stop_outside hrun
        omega
      rw [List.getElem?_append_left (by omega), w.getElem?_text b hk,
        List.getElem?_take_of_lt (by simp; omega), List.getElem?_drop, cut_other b hne]
    · have hstop : w.start + k = w.stop := by omega
      rw [List.getElem?_take_of_lt (by simp; omega),
        List.getElem?_drop, hstop, cut_stop b ⟨w, hw, rfl⟩ (by omega)]
      simp [hlen, hk]
    · rw [List.getElem?_eq_none (by simp; omega), List.getElem?_eq_none (by simp; omega)]

/-! ## parsecmd -/

def terminals (b : List UInt8) : List Terminal := lex 0 (text b)

theorem rest_zero (b : List UInt8) : rest b 0 = terminals b := by
  rfl

theorem parsecmd_yields (b : List UInt8) :
    (∃ cmd, Derives .line (terminals b) cmd ∧ parsecmd b = .ok (cmd, nulterminate cmd b)) ∨
      ∃ why, why ≠ .parseblock ∧ parsecmd b = .error (.panic why) := by
  have hlen := rest_length_le b
  have hline := (sound b (rounds b)).line 0 (Nat.zero_le _) (by rw [rounds]; omega)
  rw [parsecmd]
  match hx : parseline b (strlen b) (rounds b) 0, hline with
  | .error (.panic why), hwhy => exact .inr ⟨why, hwhy, rfl⟩
  | .ok (cmd, ps), ⟨hps, ts, hts, hder⟩ =>
    dsimp only [bind, Except.bind]
    split_ifs with hend
    · exact .inr ⟨.syntaxError, by decide, rfl⟩
    · -- nothing is left over, so the line is what `parseline` read
      rw [(skipSpace_end hps).mp (not_not.mp hend), List.append_nil, rest_zero] at hts
      exact .inl ⟨cmd, hts ▸ hder, rfl⟩

theorem parsecmd_accepts {cmd : Cmd} (h : Derives .line (terminals b) cmd) :
    parsecmd b = .ok (cmd, nulterminate cmd b) := by
  have hlen := rest_length_le b
  rw [rest_zero] at hlen
  obtain ⟨ps, hx, hle, hps⟩ := h.accepts (4 * strlen b + 3) 0 [] (Nat.zero_le _)
    (by rw [rest_zero, List.append_nil]) (fun _ _ he => by cases he)
    (by rw [List.append_nil]; simp only [Nonterminal.extra]; omega)
  have hx' : parseline b (strlen b) (rounds b) 0 = .ok (cmd, ps) := hx
  rw [parsecmd]
  rw [hx']
  dsimp only [bind, Except.bind]
  have hend : (peek b (strlen b) ps []).1 = strlen b := (skipSpace_end hle).mpr hps
  rw [if_neg (not_not.mpr hend)]

/-- `parsecmd` returns a command exactly on the lines of the grammar, and then the tree the grammar
gives it; on every other line it panics about the line. All its strings are then NUL-terminated and
hold the text of their words. -/
theorem parser_correct (b : List UInt8) (h0 : 0 ∈ b) :
    (∀ cmd b', parsecmd b = .ok (cmd, b') ↔
      Derives .line (terminals b) cmd ∧ b' = nulterminate cmd b) ∧
    ((¬ ∃ cmd, Derives .line (terminals b) cmd) →
      ∃ why, why ≠ .parseblock ∧ parsecmd b = .error (.panic why)) ∧
    ∀ cmd b', parsecmd b = .ok (cmd, b') → ∀ w ∈ cmd.words,
      .word w ∈ terminals b ∧ IsString b' w.start (w.text b) := by
  have hok (cmd : Cmd) (b' : List UInt8) : parsecmd b = .ok (cmd, b') ↔
      Derives .line (terminals b) cmd ∧ b' = nulterminate cmd b := by
    constructor
    · intro h
      rcases parsecmd_yields b with ⟨cmd', hder, heq⟩ | ⟨why, -, heq⟩
      · rw [heq] at h
        cases h
        exact ⟨hder, rfl⟩
      · rw [heq] at h
        cases h
    · rintro ⟨hder, rfl⟩
      exact parsecmd_accepts hder
  refine ⟨hok, ?_, ?_⟩
  · intro hno
    rcases parsecmd_yields b with ⟨cmd, hder, -⟩ | hpanic
    · exact absurd ⟨cmd, hder⟩ hno
    · exact hpanic
  · intro cmd b' h w hw
    obtain ⟨hder, rfl⟩ := (hok cmd b').mp h
    rw [nulterminate_eq]
    have hruns : ∀ v ∈ cmd.words, IsRun (text b) v := fun v hv =>
      lex_isRun (text b) 0 _ rfl v (hder.word_mem hv)
    exact ⟨hder.word_mem hw, isString_cut h0 hruns hw⟩

/-- The line `(a|b)>c&;d`, whose tokens abut. -/
def sampleLine : List UInt8 :=
  ['(', 'a', '|', 'b', ')', '>', 'c', '&', ';', 'd', '\n', '\x00'].map byte

theorem parser_correct_sample :
    0 ∈ sampleLine ∧
    parsecmd sampleLine = .ok
      (.list (.back (.redir (.pipe (.exec [⟨1, 2⟩]) (.exec [⟨3, 4⟩])) ⟨6, 7⟩ 0x601 1))
        (.exec [⟨9, 10⟩]),
        ['(', 'a', '\x00', 'b', '\x00', '>', 'c', '\x00', ';', 'd', '\x00', '\x00'].map byte) ∧
    ∃ cmd, Derives .line (terminals sampleLine) cmd := by
  have hok : parsecmd sampleLine = .ok
      (.list (.back (.redir (.pipe (.exec [⟨1, 2⟩]) (.exec [⟨3, 4⟩])) ⟨6, 7⟩ 0x601 1))
        (.exec [⟨9, 10⟩]),
        ['(', 'a', '\x00', 'b', '\x00', '>', 'c', '\x00', ';', 'd', '\x00', '\x00'].map byte) := by
    decide +kernel
  have h0 : 0 ∈ sampleLine := by decide
  exact ⟨h0, hok, _, (((parser_correct sampleLine h0).1 _ _).mp hok).1⟩

end Xv6.Shell
