import Xv6.Shell.Soundness

/-! # The parser returns every command of the grammar

The next terminal decides each choice: a nonterminal is followed only by terminals at which its
loops stop.
-/

namespace Xv6.Shell

variable {b : List UInt8} {us ts : List Terminal} {cmd : Cmd}

/-- The parser returns `cmd` and leaves the terminals `us`. -/
def Leaves (b : List UInt8) (us : List Terminal) (x : Parsed) (cmd : Cmd) : Prop :=
  ∃ ps, x = .ok (cmd, ps) ∧ ps ≤ strlen b ∧ rest b ps = us

/-- The line ends here or goes on with one of `follow`. -/
def NextAmong (follow us : List Terminal) : Prop :=
  ∀ t vs, us = t :: vs → t ∈ follow

theorem NextAmong.mono {follow follow' us : List Terminal} (h : NextAmong follow us)
    (hsub : follow ⊆ follow') : NextAmong follow' us :=
  fun t vs he => hsub (h t vs he)

theorem NextAmong.cons {follow us : List Terminal} {t : Terminal} (h : t ∈ follow) :
    NextAmong follow (t :: us) := by
  rintro _ _ ⟨⟩
  exact h

theorem NextAmong.single_false {follow us : List Terminal} (h : NextAmong follow us) {c : Char}
    {t : Terminal} (hc : byte c = t.ret) (ht : t ∈ [.bar, .left, .right, .semi, .amp])
    (hnot : t ∉ follow) : nextIn ([c].map byte) us = false := by
  rw [Bool.eq_false_iff]
  intro hnext
  obtain ⟨vs, he⟩ := (nextIn_single hc ht us).mp hnext
  exact hnot (h t vs he)

theorem nextIn_arrow_false (h : ∀ a vs, us ≠ .arrow a :: vs) :
    nextIn (['<', '>'].map byte) us = false := by
  rw [Bool.eq_false_iff]
  intro hnext
  obtain ⟨a, vs, he⟩ := (nextIn_arrow us).mp hnext
  exact h a vs he

/-! ## The loops -/

theorem parseredirs_leaves (rs : List Redir) (n : Nat) (cmd : Cmd) (ps : Nat) (us : List Terminal)
    (hps : ps ≤ strlen b) (hrest : rest b ps = rs.flatMap Redir.terminals ++ us)
    (hus : ∀ a vs, us ≠ .arrow a :: vs) (hn : (rest b ps).length < n) :
    Leaves b us (parseredirs b (strlen b) n cmd ps) (wrap cmd rs) := by
  induction rs generalizing n cmd ps with
  | nil =>
    obtain ⟨n, rfl⟩ : ∃ m, n = m + 1 := ⟨n - 1, by omega⟩
    obtain ⟨p, hpeek, hp, hle⟩ := peek_eq hps ['<', '>'] (by decide)
    rw [hrest] at hpeek hp
    rw [List.flatMap_nil, List.nil_append] at hpeek hp
    rw [nextIn_arrow_false hus] at hpeek
    rw [parseredirs, hpeek]
    exact ⟨p, rfl, hle, hp⟩
  | cons r rs ih =>
    obtain ⟨n, rfl⟩ : ∃ m, n = m + 1 := ⟨n - 1, by omega⟩
    obtain ⟨p, hpeek, hp, hle⟩ := peek_eq hps ['<', '>'] (by decide)
    have hr : rest b ps =
        .arrow r.arrow :: .word r.file :: (rs.flatMap Redir.terminals ++ us) := hrest
    rw [hr, List.length_cons, List.length_cons] at hn
    obtain ⟨hop, hws, hle', -⟩ := gettoken_cons hle (hp.trans hr)
    obtain ⟨hret, hvs, hle'', hword⟩ := gettoken_cons hle' hws
    rw [show (Terminal.word r.file).ret = byte 'a' from rfl] at hret
    rw [(nextIn_arrow (rest b ps)).mpr ⟨_, _, hr⟩] at hpeek
    rw [parseredirs, hpeek]
    dsimp only
    rw [if_neg (not_not.mpr hret), hop, redirect_arrow, ← hword r.file rfl]
    exact ih n _ _ hle'' hvs (by rw [hvs]; omega)

theorem parseback_leaves (k n : Nat) (cmd : Cmd) (ps : Nat) (us : List Terminal)
    (hps : ps ≤ strlen b) (hrest : rest b ps = List.replicate k .amp ++ us)
    (hus : NextAmong [.right, .semi] us) (hn : (rest b ps).length < n) :
    Leaves b us (parseback b (strlen b) n cmd ps) (background k cmd) := by
  induction k generalizing n cmd ps with
  | zero =>
    obtain ⟨n, rfl⟩ : ∃ m, n = m + 1 := ⟨n - 1, by omega⟩
    obtain ⟨p, hpeek, hp, hle⟩ := peek_eq hps ['&'] (by decide)
    rw [hrest] at hpeek hp
    rw [List.replicate_zero, List.nil_append] at hpeek hp
    rw [hus.single_false (t := .amp) rfl (by decide) (by decide)] at hpeek
    rw [parseback, hpeek]
    exact ⟨p, rfl, hle, hp⟩
  | succ k ih =>
    obtain ⟨n, rfl⟩ : ∃ m, n = m + 1 := ⟨n - 1, by omega⟩
    obtain ⟨p, hpeek, hp, hle⟩ := peek_eq hps ['&'] (by decide)
    have hr : rest b ps = .amp :: (List.replicate k .amp ++ us) := hrest
    rw [hr, List.length_cons] at hn
    obtain ⟨-, hvs, hle', -⟩ := gettoken_cons hle (hp.trans hr)
    rw [(nextIn_single rfl (by decide) (rest b ps)).mpr ⟨_, hr⟩] at hpeek
    rw [parseback, hpeek]
    exact ih n (.back cmd) _ hle' hvs (by rw [hvs]; omega)

/-- No arrow starts what is left of a command after the redirections of a word. -/
theorem args_not_arrow (args : List Arg) (hus : NextAmong enders us)
    (a : Arrow) (vs : List Terminal) : args.flatMap Arg.terminals ++ us ≠ .arrow a :: vs := by
  cases args with
  | nil =>
    intro h
    have hmem := hus _ _ h
    cases a <;> exact absurd hmem (by decide)
  | cons arg args => simp [Arg.terminals]

theorem parseargs_leaves (args : List Arg) (n argc : Nat) (words : List Word) (redirs : List Redir)
    (ps : Nat) (us : List Terminal) (hargc : argc + args.length < MAXARGS) (hps : ps ≤ strlen b)
    (hrest : rest b ps = args.flatMap Arg.terminals ++ us) (hus : NextAmong enders us)
    (hn : (rest b ps).length < n) :
    Leaves b us (parseargs b (strlen b) n (wrap (.exec words) redirs) argc ps)
      (wrap (.exec (words ++ args.map Arg.word)) (redirs ++ args.flatMap Arg.redirs)) := by
  induction args generalizing n argc words redirs ps with
  | nil =>
    obtain ⟨n, rfl⟩ : ∃ m, n = m + 1 := ⟨n - 1, by omega⟩
    obtain ⟨p, hpeek, hp, hle⟩ := peek_eq hps ['|', ')', '&', ';'] (by decide)
    rw [hrest] at hpeek hp
    rw [List.flatMap_nil, List.nil_append] at hpeek hp
    rw [parseargs, hpeek]
    simp only [List.map_nil, List.flatMap_nil, List.append_nil]
    cases us with
    | nil =>
      obtain ⟨hret, hend, hle'⟩ := gettoken_nil hle hp
      rw [if_pos hret]
      exact ⟨_, rfl, hle', hend⟩
    | cons t us =>
      rw [if_pos ((nextIn_enders _).mpr ⟨t, us, hus t us rfl, rfl⟩)]
      exact ⟨p, rfl, hle, hp⟩
  | cons arg args ih =>
    obtain ⟨n, rfl⟩ : ∃ m, n = m + 1 := ⟨n - 1, by omega⟩
    obtain ⟨p, hpeek, hp, hle⟩ := peek_eq hps ['|', ')', '&', ';'] (by decide)
    have hr : rest b ps = .word arg.word ::
        (arg.redirs.flatMap Redir.terminals ++ (args.flatMap Arg.terminals ++ us)) := by
      rw [hrest]
      simp [Arg.terminals]
    rw [hr, List.length_cons] at hn
    obtain ⟨hret, hvs, hle', hword⟩ := gettoken_cons hle (hp.trans hr)
    have hzero := hret ▸ ret_ne_zero (.word arg.word)
    rw [show (Terminal.word arg.word).ret = byte 'a' from rfl] at hret
    rw [List.length_cons] at hargc
    rw [hr] at hpeek
    rw [parseargs, hpeek]
    dsimp only
    rw [if_neg (by simp [nextIn, Terminal.sign]), if_neg hzero,
      if_neg (not_not.mpr hret), if_neg (by omega), ← hword arg.word rfl, push_wrap]
    obtain ⟨q, hq, hle'', hrest'⟩ := parseredirs_leaves arg.redirs n
      (wrap (Cmd.push (.exec words) arg.word) redirs) _ _ hle' hvs (args_not_arrow args hus)
      (by rw [hvs]; omega)
    rw [hq]
    have hlen : (rest b q).length < n := by
      rw [List.length_append] at hn
      rw [hrest']
      omega
    have hrec := ih n (argc + 1) (words ++ [arg.word]) (redirs ++ arg.redirs) q (by omega) hle''
      hrest' hlen
    rw [wrap_append] at hrec
    show Leaves b us (parseargs b (strlen b) n
      (wrap (wrap (.exec (words ++ [arg.word])) redirs) arg.redirs) (argc + 1) q) _
    simpa using hrec

/-! ## The recursive functions -/

def parse (b : List UInt8) : Nonterminal → Nat → Nat → Parsed
  | .line => parseline b (strlen b)
  | .pipe => parsepipe b (strlen b)
  | .exec => parseexec b (strlen b)

/-- What may come after a nonterminal. -/
def Nonterminal.follow : Nonterminal → List Terminal
  | line => [.right]
  | pipe => [.right, .semi, .amp]
  | exec => [.right, .semi, .amp, .bar]

/-- The rounds a nonterminal needs besides four for each terminal. -/
def Nonterminal.extra : Nonterminal → Nat
  | line => 4
  | pipe => 3
  | exec => 2

/-- At every cursor where `ts` comes first and may end, `x` is parsed as `cmd`. -/
def Accepts (b : List UInt8) (x : Nonterminal) (ts : List Terminal) (cmd : Cmd) : Prop :=
  ∀ n ps us, ps ≤ strlen b → rest b ps = ts ++ us → NextAmong x.follow us →
    4 * (ts ++ us).length + x.extra ≤ n + 1 → Leaves b us (parse b x (n + 1) ps) cmd

/-- `parseline` up to its semicolon. -/
theorem parseline_background (k : Nat)
    (h : Accepts b .pipe ts cmd) {n ps : Nat} (hps : ps ≤ strlen b)
    (hrest : rest b ps = ts ++ (List.replicate k .amp ++ us)) (hus : NextAmong [.right, .semi] us)
    (hn : 4 * (rest b ps).length + 4 ≤ n + 1) :
    ∃ q, q ≤ strlen b ∧ rest b q = us ∧ parseline b (strlen b) (n + 1) ps =
      if nextIn ([';'].map byte) us then do
        let (right, r) ← parseline b (strlen b) n (gettoken b (strlen b) q).ps
        .ok (.list (background k cmd) right, r)
      else .ok (background k cmd, q) := by
  obtain ⟨n, rfl⟩ : ∃ m, n = m + 1 := ⟨n - 1, by omega⟩
  have hpipe : NextAmong Nonterminal.pipe.follow (List.replicate k .amp ++ us) := by
    cases k with
    | zero => exact hus.mono (by decide)
    | succ k => exact .cons (by decide)
  rw [hrest] at hn
  obtain ⟨p, hp, hle, hrest'⟩ := h n ps _ hps hrest hpipe (by simp only [Nonterminal.extra]; omega)
  rw [List.length_append, ← hrest'] at hn
  obtain ⟨q, hq, hle', hus'⟩ := parseback_leaves k (n + 1) cmd p us hle hrest' hus (by omega)
  obtain ⟨r, hpeek, hr, hle''⟩ := peek_eq hle' [';'] (by decide)
  refine ⟨r, hle'', hr.trans hus', ?_⟩
  have hp' : parsepipe b (strlen b) (n + 1) ps = .ok (cmd, p) := hp
  rw [parseline, hp']
  dsimp only [bind, Except.bind]
  rw [hq]
  dsimp only
  rw [hpeek, hus']

theorem accepts_line (k : Nat) (h : Accepts b .pipe ts cmd) :
    Accepts b .line (ts ++ List.replicate k .amp) (background k cmd) := by
  intro n ps us hps hrest hus hn
  rw [← hrest] at hn
  rw [List.append_assoc] at hrest
  obtain ⟨q, hle, hq, heq⟩ := parseline_background k h hps hrest (hus.mono (by decide)) hn
  rw [hus.single_false (t := .semi) rfl (by decide) (by decide)] at heq
  exact ⟨q, heq, hle, hq⟩

theorem accepts_list {ts us : List Terminal} {left right : Cmd} (k : Nat)
    (hl : Accepts b .pipe ts left) (hr : Accepts b .line us right) :
    Accepts b .line (ts ++ (List.replicate k .amp ++ .semi :: us))
      (.list (background k left) right) := by
  intro n ps vs hps hrest hvs hn
  rw [← hrest] at hn
  rw [List.append_assoc, List.append_assoc] at hrest
  obtain ⟨q, hle, hq, heq⟩ := parseline_background k hl hps hrest (.cons (by decide)) hn
  obtain ⟨-, hus, hle', -⟩ := gettoken_cons hle hq
  rw [hrest] at hn
  simp only [List.length_append, List.length_cons, Nonterminal.extra] at hn
  obtain ⟨n, rfl⟩ : ∃ m, n = m + 1 := ⟨n - 1, by omega⟩
  obtain ⟨r, hright, hle'', hr'⟩ := hr n _ vs hle' hus hvs (by
    simp only [List.length_append, Nonterminal.extra]; omega)
  have hright' : parseline b (strlen b) (n + 1) (gettoken b (strlen b) q).ps = .ok (right, r) :=
    hright
  rw [hright'] at heq
  exact ⟨r, heq, hle'', hr'⟩

/-- `parsepipe` up to its bar. -/
theorem parsepipe_exec (h : Accepts b .exec ts cmd) {n ps : Nat}
    (hps : ps ≤ strlen b) (hrest : rest b ps = ts ++ us)
    (hus : NextAmong Nonterminal.exec.follow us) (hn : 4 * (rest b ps).length + 3 ≤ n + 1) :
    ∃ q, q ≤ strlen b ∧ rest b q = us ∧ parsepipe b (strlen b) (n + 1) ps =
      if nextIn (['|'].map byte) us then do
        let (right, r) ← parsepipe b (strlen b) n (gettoken b (strlen b) q).ps
        .ok (.pipe cmd right, r)
      else .ok (cmd, q) := by
  obtain ⟨n, rfl⟩ : ∃ m, n = m + 1 := ⟨n - 1, by omega⟩
  rw [hrest] at hn
  obtain ⟨p, hp, hle, hrest'⟩ := h n ps us hps hrest hus (by simp only [Nonterminal.extra]; omega)
  obtain ⟨q, hpeek, hq, hle'⟩ := peek_eq hle ['|'] (by decide)
  refine ⟨q, hle', hq.trans hrest', ?_⟩
  have hp' : parseexec b (strlen b) (n + 1) ps = .ok (cmd, p) := hp
  rw [parsepipe, hp']
  dsimp only [bind, Except.bind]
  rw [hpeek, hrest']

theorem accepts_exec (h : Accepts b .exec ts cmd) :
    Accepts b .pipe ts cmd := by
  intro n ps us hps hrest hus hn
  rw [← hrest] at hn
  obtain ⟨q, hle, hq, heq⟩ := parsepipe_exec h hps hrest (hus.mono (by decide)) hn
  rw [hus.single_false (t := .bar) rfl (by decide) (by decide)] at heq
  exact ⟨q, heq, hle, hq⟩

theorem accepts_pipe {ts us : List Terminal} {left right : Cmd} (hl : Accepts b .exec ts left)
    (hr : Accepts b .pipe us right) : Accepts b .pipe (ts ++ .bar :: us) (.pipe left right) := by
  intro n ps vs hps hrest hvs hn
  rw [← hrest] at hn
  rw [List.append_assoc] at hrest
  obtain ⟨q, hle, hq, heq⟩ := parsepipe_exec hl hps hrest (.cons (by decide)) hn
  obtain ⟨-, hus, hle', -⟩ := gettoken_cons hle hq
  rw [hrest] at hn
  simp only [List.length_append, List.length_cons] at hn
  obtain ⟨n, rfl⟩ : ∃ m, n = m + 1 := ⟨n - 1, by omega⟩
  obtain ⟨r, hright, hle'', hr'⟩ := hr n _ vs hle' hus hvs (by
    simp only [List.length_append]; omega)
  have hright' : parsepipe b (strlen b) (n + 1) (gettoken b (strlen b) q).ps = .ok (right, r) :=
    hright
  rw [hright'] at heq
  exact ⟨r, heq, hle'', hr'⟩

theorem not_arrow_of_follow (h : NextAmong Nonterminal.exec.follow us)
    (a : Arrow) (vs : List Terminal) : us ≠ .arrow a :: vs := by
  intro he
  have hmem := h _ _ he
  cases a <;> exact absurd hmem (by decide)

theorem accepts_block (rs : List Redir)
    (h : Accepts b .line ts cmd) :
    Accepts b .exec (.left :: (ts ++ .right :: rs.flatMap Redir.terminals)) (wrap cmd rs) := by
  intro n ps us hps hrest hus hn
  simp only [List.cons_append, List.append_assoc] at hrest
  simp only [List.length_append, List.length_cons, Nonterminal.extra] at hn
  -- `parseexec` and `parseblock` look at the same parenthesis
  obtain ⟨n, rfl⟩ : ∃ m, n = m + 2 := ⟨n - 2, by omega⟩
  obtain ⟨p, hpeek, hp, hle⟩ := peek_eq hps ['('] (by decide)
  obtain ⟨p', hpeek', hp', hle'⟩ := peek_eq hle ['('] (by decide)
  have hopen := (nextIn_single rfl (by decide) (rest b ps)).mpr ⟨_, hrest⟩
  rw [hopen] at hpeek
  rw [hp, hopen] at hpeek'
  obtain ⟨-, hts, hle2, -⟩ := gettoken_cons hle' (hp'.trans (hp.trans hrest))
  obtain ⟨q, hq, hle3, hq'⟩ := h n _ _ hle2 hts (.cons (by decide)) (by
    simp only [List.length_append, List.length_cons, Nonterminal.extra]; omega)
  obtain ⟨r, hpeek3, hr, hle4⟩ := peek_eq hle3 [')'] (by decide)
  rw [hq'] at hpeek3
  obtain ⟨-, hrs, hle5, -⟩ := gettoken_cons hle4 (hr.trans hq')
  have hq2 : parseline b (strlen b) (n + 1) (gettoken b (strlen b) p').ps = .ok (cmd, q) := hq
  show Leaves b us (parseexec b (strlen b) (n + 2 + 1) ps) _
  rw [parseexec, hpeek]
  dsimp only
  rw [parseblock, hpeek']
  dsimp only
  rw [hq2]
  dsimp only [bind, Except.bind]
  rw [hpeek3]
  apply parseredirs_leaves rs (n + 1) cmd _ us hle5 hrs (not_arrow_of_follow hus)
  rw [hrs, List.length_append]
  omega

theorem simple_not_left (rs : List Redir) (args : List Arg)
    (hus : NextAmong enders us) (vs : List Terminal) :
    rs.flatMap Redir.terminals ++ (args.flatMap Arg.terminals ++ us) ≠ .left :: vs := by
  intro he
  cases rs with
  | cons r rs => cases he
  | nil =>
    cases args with
    | cons arg args => cases he
    | nil => exact absurd (hus _ _ he) (by decide)

theorem accepts_simple (rs : List Redir) (args : List Arg) (h : args.length < MAXARGS) :
    Accepts b .exec (rs.flatMap Redir.terminals ++ args.flatMap Arg.terminals)
      (wrap (.exec (args.map Arg.word)) (rs ++ args.flatMap Arg.redirs)) := by
  intro n ps us hps hrest hus hn
  rw [← hrest] at hn
  rw [List.append_assoc] at hrest
  have hus' : NextAmong enders us := hus.mono (by decide)
  obtain ⟨p, hpeek, hp, hle⟩ := peek_eq hps ['('] (by decide)
  have hnot : nextIn (['('].map byte) (rest b ps) = false := by
    rw [Bool.eq_false_iff]
    intro hnext
    obtain ⟨vs, he⟩ := (nextIn_single (t := .left) rfl (by decide) _).mp hnext
    exact simple_not_left rs args hus' vs (hrest.symm.trans he)
  rw [hnot] at hpeek
  obtain ⟨q, hq, hle', hq'⟩ := parseredirs_leaves rs n (.exec []) p _ hle (hp.trans hrest)
    (args_not_arrow args hus') (by rw [hp]; simp only [Nonterminal.extra] at hn; omega)
  show Leaves b us (parseexec b (strlen b) (n + 1) ps) _
  rw [parseexec, hpeek]
  dsimp only
  rw [hq]
  have hlen : (rest b q).length < n := by
    rw [hrest, List.length_append, ← hq'] at hn
    simp only [Nonterminal.extra] at hn
    omega
  exact parseargs_leaves args n 0 [] rs q us (by omega) hle' hq' hus' hlen

/-- Every derivation is accepted. -/
theorem Derives.accepts {x : Nonterminal} (h : Derives x ts cmd) :
    Accepts b x ts cmd := by
  induction h with
  | line k _ ih => exact accepts_line k ih
  | list k _ _ ihl ihr => exact accepts_list k ihl ihr
  | exec _ ih => exact accepts_exec ih
  | pipe _ _ ihl ihr => exact accepts_pipe ihl ihr
  | block rs _ ih => exact accepts_block rs ih
  | simple rs args h => exact accepts_simple rs args h

end Xv6.Shell
