import Xv6.Shell.Scan

/-! # The parser returns only what the grammar derives

With a bounded number of rounds every parsing function stops: at a command of the grammar, or in a
panic about the line.
-/

namespace Xv6.Shell

variable {b : List UInt8} {t : Terminal} {n : Nat}

/-- The parser returned, with `P` of what it returned, or it panicked about the line. -/
def Yields (P : Cmd → Nat → Prop) : Parsed → Prop
  | .ok (cmd, ps) => P cmd ps
  | .error (.panic why) => why ≠ .parseblock
  | .error .fuel => False

theorem Yields.bind {P Q : Cmd → Nat → Prop} {x : Parsed} {f : Cmd × Nat → Parsed}
    (hx : Yields P x) (hf : ∀ cmd ps, P cmd ps → Yields Q (f (cmd, ps))) : Yields Q (x >>= f) := by
  match x, hx with
  | .ok (cmd, ps), hx => exact hf cmd ps hx
  | .error (.panic why), hx => exact hx

theorem Yields.mono {P Q : Cmd → Nat → Prop} {x : Parsed} (hx : Yields P x)
    (h : ∀ cmd ps, P cmd ps → Q cmd ps) : Yields Q x := by
  match x, hx with
  | .ok (cmd, ps), hx => exact h cmd ps hx
  | .error (.panic why), hx => exact hx

/-- Between the cursors `s` and `ps` stand terminals that `G` relates to the command. -/
def Reads (b : List UInt8) (s : Nat) (G : List Terminal → Cmd → Prop) (cmd : Cmd) (ps : Nat) :
    Prop :=
  ps ≤ strlen b ∧ ∃ ts, rest b s = ts ++ rest b ps ∧ G ts cmd

/-- The terminals `us` come first. -/
theorem Reads.after {s s' : Nat} {G G' : List Terminal → Cmd → Prop} {cmd : Cmd} {ps : Nat}
    (h : Reads b s' G cmd ps) (us : List Terminal) (hs : rest b s = us ++ rest b s')
    (hG : ∀ ts, G ts cmd → G' (us ++ ts) cmd) : Reads b s G' cmd ps := by
  obtain ⟨hle, ts, hts, hg⟩ := h
  exact ⟨hle, us ++ ts, by rw [hs, hts, List.append_assoc], hG ts hg⟩

theorem sign_eq_ret (ht : t ∈ [.bar, .left, .right, .semi, .amp]) (u : Terminal) :
    u.sign = some t.ret ↔ u = t := by
  simp only [List.mem_cons, List.not_mem_nil, or_false] at ht
  rcases ht with rfl | rfl | rfl | rfl | rfl <;> rcases u with _ | _ | _ | _ | _ | (_ | _ | _) | w
  all_goals first | decide | simp [Terminal.sign]

theorem nextIn_single {c : Char} (hc : byte c = t.ret)
    (ht : t ∈ [.bar, .left, .right, .semi, .amp]) (ts : List Terminal) :
    nextIn ([c].map byte) ts = true ↔ ∃ us, ts = t :: us := by
  rw [List.map_singleton, hc]
  cases ts with
  | nil => simp [nextIn]
  | cons u us =>
    have hsign := sign_eq_ret ht u
    cases hu : u.sign with
    | none =>
      simpa [nextIn, hu] using hsign
    | some c =>
      simpa [nextIn, hu, strchr] using hsign

theorem nextIn_arrow (ts : List Terminal) :
    nextIn (['<', '>'].map byte) ts = true ↔ ∃ a us, ts = .arrow a :: us := by
  rcases ts with _ | ⟨u, us⟩
  · simp [nextIn]
  · rcases u with _ | _ | _ | _ | _ | (_ | _ | _) | w <;>
      simp [nextIn, Terminal.sign] <;> decide

/-- The terminals that end a command. -/
def enders : List Terminal := [.bar, .right, .amp, .semi]

theorem nextIn_enders (ts : List Terminal) :
    nextIn (['|', ')', '&', ';'].map byte) ts = true ↔ ∃ t us, t ∈ enders ∧ ts = t :: us := by
  rcases ts with _ | ⟨u, us⟩
  · simp [nextIn]
  · rcases u with _ | _ | _ | _ | _ | (_ | _ | _) | w <;>
      simp [nextIn, Terminal.sign, enders] <;> decide

theorem ret_word (h : t.ret = byte 'a') : ∃ w, t = .word w := by
  rcases t with _ | _ | _ | _ | _ | (_ | _ | _) | w
  case word => exact ⟨w, rfl⟩
  all_goals exact absurd h (by decide)

theorem ret_ne_zero (t : Terminal) : t.ret ≠ 0 := by
  rcases t with _ | _ | _ | _ | _ | (_ | _ | _) | w
  case word => exact show byte 'a' ≠ 0 by decide
  all_goals decide

theorem redirect_arrow (a : Arrow) (cmd : Cmd) (w : Word) :
    redirect (Terminal.arrow a).ret cmd w = Redir.around cmd ⟨a, w⟩ := by
  cases a <;> rfl

theorem wrap_append (cmd : Cmd) (rs us : List Redir) :
    wrap cmd (rs ++ us) = wrap (wrap cmd rs) us := List.foldl_append

theorem push_wrap (cmd : Cmd) (rs : List Redir) (w : Word) :
    (wrap cmd rs).push w = wrap (cmd.push w) rs := by
  induction rs generalizing cmd with
  | nil => rfl
  | cons r rs ih => exact ih (r.around cmd)

/-! ## The loops -/

theorem parseredirs_yields (n : Nat) (cmd : Cmd) (ps : Nat) (hps : ps ≤ strlen b)
    (hn : (rest b ps).length < n) :
    Yields (Reads b ps fun ts c => ∃ rs : List Redir, ts = rs.flatMap Redir.terminals ∧
      c = wrap cmd rs) (parseredirs b (strlen b) n cmd ps) := by
  induction n generalizing cmd ps with
  | zero => exact absurd hn (Nat.not_lt_zero _)
  | succ n ih =>
    obtain ⟨ps', hpeek, hrest, hle⟩ := peek_eq hps ['<', '>'] (by decide)
    rw [parseredirs, hpeek]
    dsimp only
    split_ifs with hmore hfile
    · show Panic.missingFile ≠ _
      decide
    · -- an arrow and a word are taken, the loop goes on behind them
      obtain ⟨a, us, hr⟩ := (nextIn_arrow _).mp hmore
      obtain ⟨hop, hus, hle', -⟩ := gettoken_cons hle (hrest.trans hr)
      cases us with
      | nil =>
        have h := (gettoken_nil hle' hus).1
        rw [h] at hfile
        exact absurd (by decide) hfile
      | cons t us =>
        obtain ⟨hret, hus', hle'', hword⟩ := gettoken_cons hle' hus
        rw [hret, not_not] at hfile
        obtain ⟨w, rfl⟩ := ret_word hfile
        rw [hop, redirect_arrow, ← hword w rfl]
        rw [hr, List.length_cons, List.length_cons] at hn
        have hrec := ih (Redir.around cmd ⟨a, w⟩) _ hle'' (by rw [hus']; omega)
        refine hrec.mono fun c p hp => hp.after [.arrow a, .word w] (by rw [hr, hus']; rfl) ?_
        rintro ts ⟨rs, rfl, rfl⟩
        exact ⟨⟨a, w⟩ :: rs, rfl, rfl⟩
    · exact ⟨hle, [], by rw [hrest]; rfl, [], rfl, rfl⟩

theorem parseback_yields (n : Nat) (cmd : Cmd) (ps : Nat) (hps : ps ≤ strlen b)
    (hn : (rest b ps).length < n) :
    Yields (Reads b ps fun ts c => ∃ k, ts = List.replicate k .amp ∧ c = background k cmd)
      (parseback b (strlen b) n cmd ps) := by
  induction n generalizing cmd ps with
  | zero => exact absurd hn (Nat.not_lt_zero _)
  | succ n ih =>
    obtain ⟨ps', hpeek, hrest, hle⟩ := peek_eq hps ['&'] (by decide)
    rw [parseback, hpeek]
    dsimp only
    split_ifs with hmore
    · obtain ⟨us, hr⟩ := (nextIn_single (t := .amp) rfl (by decide) _).mp hmore
      obtain ⟨-, hus, hle', -⟩ := gettoken_cons hle (hrest.trans hr)
      rw [hr, List.length_cons] at hn
      have hrec := ih (.back cmd) _ hle' (by rw [hus]; omega)
      refine hrec.mono fun c p hp => hp.after [.amp] (by rw [hr, hus]; rfl) ?_
      rintro ts ⟨k, rfl, rfl⟩
      exact ⟨k + 1, rfl, rfl⟩
    · exact ⟨hle, [], by rw [hrest]; rfl, 0, rfl, rfl⟩

/-- The words and redirections `ts` complete a command that has `words` and `redirs` so far. -/
def Completes (words : List Word) (redirs : List Redir) (ts : List Terminal) (cmd : Cmd) : Prop :=
  ∃ args : List Arg, ts = args.flatMap Arg.terminals ∧ words.length + args.length < MAXARGS ∧
    cmd = wrap (.exec (words ++ args.map Arg.word)) (redirs ++ args.flatMap Arg.redirs)

theorem parseargs_yields (n argc : Nat) (words : List Word) (redirs : List Redir) (ps : Nat)
    (hargc : argc = words.length) (hmax : argc < MAXARGS) (hps : ps ≤ strlen b)
    (hn : (rest b ps).length < n) :
    Yields (Reads b ps (Completes words redirs))
      (parseargs b (strlen b) n (wrap (.exec words) redirs) argc ps) := by
  induction n generalizing argc words redirs ps with
  | zero => exact absurd hn (Nat.not_lt_zero _)
  | succ n ih =>
    obtain ⟨ps', hpeek, hrest, hle⟩ := peek_eq hps ['|', ')', '&', ';'] (by decide)
    have hdone (q : Nat) (hq : q ≤ strlen b) (hr : rest b q = rest b ps) :
        Reads b ps (Completes words redirs) (wrap (.exec words) redirs) q :=
      ⟨hq, [], by rw [hr]; rfl, [], rfl, by simpa [← hargc], by simp⟩
    rw [parseargs, hpeek]
    dsimp only
    split_ifs with hends hzero hword hmany
    · exact hdone ps' hle hrest
    · cases hr : rest b ps with
      | nil =>
        obtain ⟨-, hend, hle'⟩ := gettoken_nil hle (hrest.trans hr)
        exact hdone _ hle' (hend.trans hr.symm)
      | cons t us =>
        rw [(gettoken_cons hle (hrest.trans hr)).1] at hzero
        exact absurd hzero (ret_ne_zero t)
    · show Panic.syntaxError ≠ _
      decide
    · show Panic.tooManyArgs ≠ _
      decide
    · cases hr : rest b ps with
      | nil => exact absurd (gettoken_nil hle (hrest.trans hr)).1 hzero
      | cons t us =>
        obtain ⟨hret, hus, hle', hw⟩ := gettoken_cons hle (hrest.trans hr)
        rw [hret, not_not] at hword
        obtain ⟨w, rfl⟩ := ret_word hword
        rw [hr, List.length_cons] at hn
        rw [← hw w rfl, push_wrap]
        apply (parseredirs_yields n _ _ hle' (by rw [hus]; omega)).bind
        rintro c p ⟨hp, vs, hvs, rs, rfl, rfl⟩
        have hlen : (rest b p).length < n := by
          rw [hus] at hvs
          rw [hvs, List.length_append] at hn
          omega
        have hrec := ih (argc + 1) (words ++ [w]) (redirs ++ rs) p (by simp [hargc]) (by omega)
          hp hlen
        rw [← wrap_append]
        refine hrec.mono fun c q hq => hq.after (.word w :: rs.flatMap Redir.terminals) ?_ ?_
        · rw [List.cons_append, ← hvs, hus, hr]
        · rintro ts ⟨args, rfl, hcount, rfl⟩
          refine ⟨⟨w, rs⟩ :: args, rfl, ?_, by simp⟩
          simp only [List.length_append, List.length_cons] at hcount ⊢
          omega

/-! ## The recursive functions -/

/-- Rounds enough for a nonterminal where `m` terminals are left. -/
structure Sound (b : List UInt8) (n : Nat) : Prop where
  line : ∀ ps ≤ strlen b, 4 * (rest b ps).length + 4 ≤ n →
    Yields (Reads b ps (Derives .line)) (parseline b (strlen b) n ps)
  pipe : ∀ ps ≤ strlen b, 4 * (rest b ps).length + 3 ≤ n →
    Yields (Reads b ps (Derives .pipe)) (parsepipe b (strlen b) n ps)
  exec : ∀ ps ≤ strlen b, 4 * (rest b ps).length + 2 ≤ n →
    Yields (Reads b ps (Derives .exec)) (parseexec b (strlen b) n ps)
  block : ∀ ps ≤ strlen b, 4 * (rest b ps).length + 1 ≤ n → (∃ us, rest b ps = .left :: us) →
    Yields (Reads b ps (Derives .exec)) (parseblock b (strlen b) n ps)

theorem Reads.length_le {s ps : Nat} {G : List Terminal → Cmd → Prop} {cmd : Cmd}
    (h : Reads b s G cmd ps) : (rest b ps).length ≤ (rest b s).length := by
  obtain ⟨-, ts, hts, -⟩ := h
  rw [hts, List.length_append]
  omega

theorem Sound.parseline (h : Sound b n) (ps : Nat) (hps : ps ≤ strlen b)
    (hn : 4 * (rest b ps).length + 4 ≤ n + 1) :
    Yields (Reads b ps (Derives .line)) (parseline b (strlen b) (n + 1) ps) := by
  rw [Shell.parseline]
  apply (h.pipe ps hps (by omega)).bind
  intro left p hleft
  have hlen := hleft.length_le
  obtain ⟨hp, ts, hts, hder⟩ := hleft
  apply (parseback_yields n left p hp (by omega)).bind
  intro cmd q hq
  have hlen' := hq.length_le
  obtain ⟨hq, us, hus, k, rfl, rfl⟩ := hq
  obtain ⟨q', hpeek, hrest, hle⟩ := peek_eq hq [';'] (by decide)
  dsimp only
  rw [hpeek]
  split_ifs with hmore
  · obtain ⟨vs, hr⟩ := (nextIn_single (t := .semi) rfl (by decide) _).mp hmore
    obtain ⟨-, hvs, hle', -⟩ := gettoken_cons hle (hrest.trans hr)
    rw [hr, List.length_cons] at hlen'
    apply (h.line _ hle' (by rw [hvs]; omega)).bind
    rintro right r ⟨hr', ws, hws, hright⟩
    refine ⟨hr', _, ?_, .list k hder hright⟩
    rw [hts, hus, hr, ← hvs, hws]
    simp
  · refine ⟨hle, _, ?_, .line k hder⟩
    rw [hts, hus, hrest, List.append_assoc]

theorem Sound.parsepipe (h : Sound b n) (ps : Nat) (hps : ps ≤ strlen b)
    (hn : 4 * (rest b ps).length + 3 ≤ n + 1) :
    Yields (Reads b ps (Derives .pipe)) (parsepipe b (strlen b) (n + 1) ps) := by
  rw [Shell.parsepipe]
  apply (h.exec ps hps (by omega)).bind
  intro left p hleft
  have hlen := hleft.length_le
  obtain ⟨hp, ts, hts, hder⟩ := hleft
  obtain ⟨p', hpeek, hrest, hle⟩ := peek_eq hp ['|'] (by decide)
  dsimp only
  rw [hpeek]
  split_ifs with hmore
  · obtain ⟨vs, hr⟩ := (nextIn_single (t := .bar) rfl (by decide) _).mp hmore
    obtain ⟨-, hvs, hle', -⟩ := gettoken_cons hle (hrest.trans hr)
    rw [hr, List.length_cons] at hlen
    apply (h.pipe _ hle' (by rw [hvs]; omega)).bind
    rintro right r ⟨hr', ws, hws, hright⟩
    refine ⟨hr', _, ?_, .pipe hder hright⟩
    rw [hts, hr, ← hvs, hws]
    simp
  · refine ⟨hle, ts, ?_, .exec hder⟩
    rw [hts, hrest]

theorem Sound.parseexec (h : Sound b n) (ps : Nat) (hps : ps ≤ strlen b)
    (hn : 4 * (rest b ps).length + 2 ≤ n + 1) :
    Yields (Reads b ps (Derives .exec)) (parseexec b (strlen b) (n + 1) ps) := by
  obtain ⟨p, hpeek, hrest, hle⟩ := peek_eq hps ['('] (by decide)
  rw [Shell.parseexec, hpeek]
  dsimp only
  split_ifs with hmore
  · obtain ⟨us, hr⟩ := (nextIn_single (t := .left) rfl (by decide) _).mp hmore
    have hblock := h.block p hle (by rw [hrest]; omega) ⟨us, hrest.trans hr⟩
    exact hblock.mono fun c q hq => hq.after [] hrest.symm (fun ts h => h)
  · apply (parseredirs_yields n (.exec []) p hle (by rw [hrest]; omega)).bind
    intro ret q hq
    have hlen := hq.length_le
    rw [hrest] at hlen
    obtain ⟨hq, ts, hts, rs, rfl, rfl⟩ := hq
    have hargs := parseargs_yields n 0 [] rs q rfl (by decide) hq (by omega)
    refine hargs.mono fun c r hr => hr.after _ (hrest.symm.trans hts) ?_
    rintro us ⟨args, rfl, hcount, rfl⟩
    exact .simple rs args (by simpa using hcount)

theorem Sound.parseblock (h : Sound b n) (ps : Nat) (hps : ps ≤ strlen b)
    (hn : 4 * (rest b ps).length + 1 ≤ n + 1) (hopen : ∃ us, rest b ps = .left :: us) :
    Yields (Reads b ps (Derives .exec)) (parseblock b (strlen b) (n + 1) ps) := by
  obtain ⟨p, hpeek, hrest, hle⟩ := peek_eq hps ['('] (by decide)
  rw [Shell.parseblock, hpeek]
  dsimp only
  rw [if_pos ((nextIn_single rfl (by decide) _).mpr hopen)]
  obtain ⟨us, hr⟩ := hopen
  obtain ⟨-, hus, hle', -⟩ := gettoken_cons hle (hrest.trans hr)
  rw [hr, List.length_cons] at hn
  apply (h.line _ hle' (by rw [hus]; omega)).bind
  intro cmd q hq
  have hlen := hq.length_le
  obtain ⟨hq, ts, hts, hder⟩ := hq
  obtain ⟨q', hpeek', hrest', hle''⟩ := peek_eq hq [')'] (by decide)
  rw [hpeek']
  split_ifs with hclose
  · obtain ⟨vs, hr'⟩ := (nextIn_single (t := .right) rfl (by decide) _).mp hclose
    obtain ⟨-, hvs, hle3, -⟩ := gettoken_cons hle'' (hrest'.trans hr')
    rw [hus, hr', List.length_cons] at hlen
    have hredirs := parseredirs_yields n cmd _ hle3 (by rw [hvs]; omega)
    refine hredirs.mono fun c r hrr => hrr.after (.left :: (ts ++ [.right])) ?_ ?_
    · rw [hr, ← hus, hts, hr', hvs]
      simp
    · rintro ws ⟨rs, rfl, rfl⟩
      have hder' := Derives.block rs hder
      simpa using hder'
  · show Panic.missingParen ≠ _
    decide

theorem sound (b : List UInt8) (n : Nat) : Sound b n := by
  induction n with
  | zero => exact ⟨fun _ _ h => by omega, fun _ _ h => by omega, fun _ _ h => by omega,
      fun _ _ h => by omega⟩
  | succ n ih => exact ⟨ih.parseline, ih.parsepipe, ih.parseexec, ih.parseblock⟩

end Xv6.Shell
