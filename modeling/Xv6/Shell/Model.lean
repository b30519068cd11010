import Mathlib.Data.List.Basic

/-! # The shell's parser (user/sh.c)

A line is a list of bytes; pointers into it are positions. `es` is the position of its NUL.
-/

namespace Xv6.Shell

/-- The byte of a character constant. -/
def byte (c : Char) : UInt8 := c.toUInt8

def MAXARGS : Nat := 10

def whitespace : List UInt8 := [' ', '\t', '\r', '\n', '\x0b'].map byte
def symbols : List UInt8 := ['<', '|', '>', '&', ';', '(', ')'].map byte

/-- Modes of kernel/fcntl.h. -/
def O_RDONLY : Nat := 0x000
def O_WRONLY : Nat := 0x001
def O_CREATE : Nat := 0x200
def O_TRUNC : Nat := 0x400

/-- A counted string: where it starts (`argv[i]`, `file`) and ends (`eargv[i]`, `efile`). -/
structure Word where
  start : Nat
  stop : Nat
deriving DecidableEq, Repr

/-- The five kinds of `struct cmd`. -/
inductive Cmd
  | exec (argv : List Word)
  | redir (cmd : Cmd) (file : Word) (mode fd : Nat)
  | pipe (left right : Cmd)
  | list (left right : Cmd)
  | back (cmd : Cmd)
deriving DecidableEq, Repr

inductive Panic
  | missingFile
  | parseblock
  | missingParen
  | syntaxError
  | tooManyArgs
deriving DecidableEq, Repr

/-- Why a parser gives no command. -/
inductive Stop
  | fuel
  | panic (why : Panic)
deriving DecidableEq, Repr

/-- A parser's result: the command and the cursor it leaves. -/
abbrev Parsed := Except Stop (Cmd × Nat)

def strlen (b : List UInt8) : Nat := (b.takeWhile (· != 0)).length

/-- `strchr` (ulib.c) as a test; it never finds the NUL that ends `s`. -/
def strchr (s : List UInt8) (c : UInt8) : Bool := s.contains c

section
variable (b : List UInt8) (es : Nat)

def char (s : Nat) : UInt8 := b.getD s 0

/-- `while(s < es && test(*s)) s++`, at most `n` times. -/
def skip (test : UInt8 → Bool) : Nat → Nat → Nat
  | 0, s => s
  | n + 1, s => if s < es ∧ test (char b s) then skip test n (s + 1) else s

def skipSpace (s : Nat) : Nat := skip b es (strchr whitespace) (es - s) s

/-- What `gettoken` returns and stores. -/
structure Token where
  ret : UInt8
  q : Nat
  eq : Nat
  ps : Nat
deriving DecidableEq, Repr

def inWord (c : UInt8) : Bool := !strchr whitespace c && !strchr symbols c

/-- The switch of `gettoken`: the kind of the token at `s` and its end. -/
def scan (s : Nat) : UInt8 × Nat :=
  let c := char b s
  if c = 0 then (0, s)
  else if c ∈ ['|', '(', ')', ';', '&', '<'].map byte then (c, s + 1)
  else if c = byte '>' then
    if char b (s + 1) = byte '>' then (byte '+', s + 2) else (byte '>', s + 1)
  else (byte 'a', skip b es inWord (es - s) s)

def gettoken (ps : Nat) : Token :=
  let q := skipSpace b es ps
  let t := scan b es q
  ⟨t.1, q, t.2, skipSpace b es t.2⟩

/-- The new cursor, and whether one of `toks` is next. -/
def peek (ps : Nat) (toks : List UInt8) : Nat × Bool :=
  let s := skipSpace b es ps
  (s, char b s != 0 && strchr toks (char b s))

/-- `redircmd` with the mode and descriptor the switch of `parseredirs` picks. -/
def redirect (tok : UInt8) (cmd : Cmd) (file : Word) : Cmd :=
  if tok = byte '<' then .redir cmd file O_RDONLY 0
  else if tok = byte '>' then .redir cmd file (O_WRONLY ||| O_CREATE ||| O_TRUNC) 1
  else if tok = byte '+' then .redir cmd file (O_WRONLY ||| O_CREATE) 1
  else cmd

def parseredirs : Nat → Cmd → Nat → Parsed
  | 0, _, _ => .error .fuel
  | n + 1, cmd, ps =>
    let (ps, more) := peek b es ps (['<', '>'].map byte)
    if more then
      let op := gettoken b es ps
      let file := gettoken b es op.ps
      if file.ret ≠ byte 'a' then .error (.panic .missingFile)
      else parseredirs n (redirect op.ret cmd ⟨file.q, file.eq⟩) file.ps
    else .ok (cmd, ps)

/-- `cmd->argv[argc] = q; cmd->eargv[argc] = eq`, where `ret` is the command structure `cmd`
inside the redirections put around it so far. -/
def Cmd.push : Cmd → Word → Cmd
  | exec argv, w => exec (argv ++ [w])
  | redir cmd file mode fd, w => redir (cmd.push w) file mode fd
  | cmd, _ => cmd

def parseargs : Nat → Cmd → Nat → Nat → Parsed
  | 0, _, _, _ => .error .fuel
  | n + 1, ret, argc, ps =>
    let (ps, ends) := peek b es ps (['|', ')', '&', ';'].map byte)
    if ends then .ok (ret, ps)
    else
      let t := gettoken b es ps
      if t.ret = 0 then .ok (ret, t.ps)
      else if t.ret ≠ byte 'a' then .error (.panic .syntaxError)
      else if argc + 1 ≥ MAXARGS then .error (.panic .tooManyArgs)
      else do
        let (ret, ps) ← parseredirs b es n (ret.push ⟨t.q, t.eq⟩) t.ps
        parseargs n ret (argc + 1) ps

def parseback : Nat → Cmd → Nat → Parsed
  | 0, _, _ => .error .fuel
  | n + 1, cmd, ps =>
    let (ps, more) := peek b es ps (['&'].map byte)
    if more then parseback n (.back cmd) (gettoken b es ps).ps else .ok (cmd, ps)

mutual

def parseline : Nat → Nat → Parsed
  | 0, _ => .error .fuel
  | n + 1, ps => do
    let (cmd, ps) ← parsepipe n ps
    let (cmd, ps) ← parseback b es n cmd ps
    let (ps, more) := peek b es ps ([';'].map byte)
    if more then
      let (right, ps) ← parseline n (gettoken b es ps).ps
      .ok (.list cmd right, ps)
    else .ok (cmd, ps)

def parsepipe : Nat → Nat → Parsed
  | 0, _ => .error .fuel
  | n + 1, ps => do
    let (cmd, ps) ← parseexec n ps
    let (ps, more) := peek b es ps (['|'].map byte)
    if more then
      let (right, ps) ← parsepipe n (gettoken b es ps).ps
      .ok (.pipe cmd right, ps)
    else .ok (cmd, ps)

def parseexec : Nat → Nat → Parsed
  | 0, _ => .error .fuel
  | n + 1, ps =>
    let (ps, block) := peek b es ps (['('].map byte)
    if block then parseblock n ps
    else do
      let (ret, ps) ← parseredirs b es n (.exec []) ps
      parseargs b es n ret 0 ps

def parseblock : Nat → Nat → Parsed
  | 0, _ => .error .fuel
  | n + 1, ps =>
    let (ps, opens) := peek b es ps (['('].map byte)
    if opens then do
      let (cmd, ps) ← parseline n (gettoken b es ps).ps
      let (ps, closes) := peek b es ps ([')'].map byte)
      if closes then parseredirs b es n cmd (gettoken b es ps).ps
      else .error (.panic .missingParen)
    else .error (.panic .parseblock)

end

end

def nulterminate : Cmd → List UInt8 → List UInt8
  | .exec argv, b => argv.foldl (fun b w => b.set w.stop 0) b
  | .redir cmd file _ _, b => (nulterminate cmd b).set file.stop 0
  | .pipe left right, b => nulterminate right (nulterminate left b)
  | .list left right, b => nulterminate right (nulterminate left b)
  | .back cmd, b => nulterminate cmd b

/-- Rounds that no loop or recursion of the parser exceeds. -/
def rounds (b : List UInt8) : Nat := 4 * strlen b + 4

/-- The command and the line as `nulterminate` leaves it. -/
def parsecmd (b : List UInt8) : Except Stop (Cmd × List UInt8) := do
  let es := strlen b
  let (cmd, s) ← parseline b es (rounds b) 0
  let (s, _) := peek b es s []
  if s ≠ es then .error (.panic .syntaxError) else .ok (cmd, nulterminate cmd b)

end Xv6.Shell
