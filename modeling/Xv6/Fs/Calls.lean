import Xv6.Fs.Model
import Xv6.Framework.Transition
import Mathlib.Data.Multiset.AddSub

namespace Xv6.Fs

open Xv6.Framework

/-- A string argument, from the bytes that can be read at the user's address. -/
def argstr (bytes : Text) : Option Text :=
  let s := bytes.takeWhile (· ≠ 0)
  if s.length < bytes.length ∧ s.length < MAXPATH then some s else none

def linkDots (ip : Ip) (d : Dinode) (inum parent : Nat) : Fsop (Bool × Dinode) := do
  match ← dirlink ip d dot inum with
  | (false, d) => return (false, d)
  | (true, d) => dirlink ip d dotdot parent

def createFail (dp ip : Ip) (d : Dinode) : Fsop (Option (Ip × Dinode)) := do
  iupdate ip { d with nlink := 0 }
  iunlockput ip
  iunlockput dp
  return none

def createEntry (dp : Ip) (dd : Dinode) (name : Text) (type : FileType) (ip : Ip) (inum : Nat) :
    Bool × Dinode → Fsop (Option (Ip × Dinode))
  | (false, d) => createFail dp ip d
  | (true, d) => do
    match ← dirlink dp dd name inum with
    | (false, _) => createFail dp ip d
    | (true, dd) => do
      if type = .dir then iupdate dp { dd with nlink := short (dd.nlink + 1) } else pure ()
      iunlockput dp
      return some (ip, d)

/-- create from ialloc on; `dd` and `pinum` are the parent's fields and number. -/
def createNew (ninodes : Nat) (dp : Ip) (pinum : Nat) (dd : Dinode) (name : Text)
    (type : FileType) (major minor : Int) : Fsop (Option (Ip × Dinode)) := do
  match ← ialloc ninodes type with
  | none => do
    iunlockput dp
    return none
  | some (ip, inum) => do
    let (_, d) ← ilock ip
    let d : Dinode := { d with major := short major, minor := short minor, nlink := 1 }
    iupdate ip d
    (if type = .dir then linkDots ip d inum pinum else pure (true, d)) >>=
      createEntry dp dd name type ip inum

/-- The inode is returned locked. -/
def create (ninodes : Nat) (path : Text) (type : FileType) (major minor : Int) :
    Fsop (Option (Ip × Dinode)) := do
  match ← nameiparent path with
  | none => return none
  | some (dp, name) => do
    let (pinum, dd) ← ilock dp
    match ← dirlookup dd name with
    | some (ip, _) => do
      iunlockput dp
      let (_, d) ← ilock ip
      if type = .file ∧ (d.type = .file ∨ d.type = .device) then return some (ip, d)
      else do
        iunlockput ip
        return none
    | none => createNew ninodes dp pinum dd name type major minor

/-- sys_open once the inode is found and locked. The file structure is filled in last here, since
nobody sees it before the call returns. -/
def openInode (ip : Ip) (d : Dinode) (omode : Nat) : Fsop Int := do
  if d.type = .device ∧ (d.major < 0 ∨ NDEV ≤ d.major) then do
    iunlockput ip
    return -1
  else
    match ← perform .filealloc with
    | none => do
      iunlockput ip
      return -1
    | some fd => do
      if omode &&& O_TRUNC ≠ 0 ∧ d.type = .file then do
        let _ ← itrunc ip d
      else pure ()
      iunlock ip
      perform (.fileInit fd ip)
      return fd

def sysOpen (ninodes : Nat) (path : Text) (omode : Nat) : Fsop Int :=
  match argstr path with
  | none => return -1
  | some path => do
    if omode &&& O_CREATE ≠ 0 then
      match ← create ninodes path .file 0 0 with
      | none => return -1
      | some (ip, d) => openInode ip d omode
    else
      match ← namei path with
      | none => return -1
      | some (ip, _) => do
        let (_, d) ← ilock ip
        if d.type = .dir ∧ omode ≠ O_RDONLY then do
          iunlockput ip
          return -1
        else openInode ip d omode

def sysCreate (ninodes : Nat) (path : Text) (type : FileType) (major minor : Int) : Fsop Int :=
  match argstr path with
  | none => return -1
  | some path => do
    match ← create ninodes path type major minor with
    | none => return -1
    | some (ip, _) => do
      iunlockput ip
      return 0

def sysMkdir (ninodes : Nat) (path : Text) : Fsop Int := sysCreate ninodes path .dir 0 0

def sysMknod (ninodes : Nat) (path : Text) (major minor : Int) : Fsop Int :=
  sysCreate ninodes path .device major minor

def linkBad (ip : Ip) : Fsop Int := do
  let (_, d) ← ilock ip
  iupdate ip { d with nlink := short (d.nlink - 1) }
  iunlockput ip
  return -1

def sysLink (old new : Text) : Fsop Int :=
  match argstr old, argstr new with
  | some old, some new => do
    match ← namei old with
    | none => return -1
    | some (ip, _) => do
      let (inum, d) ← ilock ip
      if d.type = .dir then do
        iunlockput ip
        return -1
      else do
        iupdate ip { d with nlink := short (d.nlink + 1) }
        iunlock ip
        match ← nameiparent new with
        | none => linkBad ip
        | some (dp, name) => do
          let (_, dd) ← ilock dp
          match ← dirlink dp dd name inum with
          | (false, _) => do
            iunlockput dp
            linkBad ip
          | (true, _) => do
            iunlockput dp
            iput ip
            return 0
  | _, _ => return -1

def isdirempty (d : Dinode) : Bool := (d.entries.drop 2).all fun de => de.inum = 0

def unlinkEntry (dp : Ip) (dd : Dinode) (ip : Ip) (d : Dinode) (off : Nat) : Fsop Int :=
  if d.nlink < 1 then panic .unlinkNlink
  else if d.type = .dir ∧ isdirempty d = false then do
    iunlockput ip
    iunlockput dp
    return -1
  else do
    match ← writei dp dd off ⟨0, []⟩ with
    | (false, _) => panic .unlinkWritei
    | (true, dd) => do
      if d.type = .dir then iupdate dp { dd with nlink := short (dd.nlink - 1) } else pure ()
      iunlockput dp
      iupdate ip { d with nlink := short (d.nlink - 1) }
      iunlockput ip
      return 0

def sysUnlink (path : Text) : Fsop Int :=
  match argstr path with
  | none => return -1
  | some path => do
    match ← nameiparent path with
    | none => return -1
    | some (dp, name) => do
      let (_, dd) ← ilock dp
      if namecmp name dot ∨ namecmp name dotdot then do
        iunlockput dp
        return -1
      else
        match ← dirlookup dd name with
        | none => do
          iunlockput dp
          return -1
        | some (ip, off) => do
          let (_, d) ← ilock ip
          unlinkEntry dp dd ip d off

def sysChdir (path : Text) : Fsop Int :=
  match argstr path with
  | none => return -1
  | some path => do
    match ← namei path with
    | none => return -1
    | some (ip, _) => do
      let (_, d) ← ilock ip
      if d.type ≠ .dir then do
        iunlockput ip
        return -1
      else do
        iunlock ip
        let cwd ← perform .takeCwd
        iput cwd
        perform (.setCwd ip)
        return 0

def sysClose (fd : Fin NOFILE) : Fsop Int := do
  match ← perform (.fileclose fd) with
  | none => return -1
  | some none => return 0
  | some (some ip) => do
    iput ip
    return 0

def sysDup (fd : Fin NOFILE) : Fsop Int := do
  match ← perform (.dup fd) with
  | none => return -1
  | some fd => return fd

def fork : Fsop Int := do
  match ← perform .fork with
  | none => return -1
  | some np => return np

def closeFiles : List (Fin NOFILE) → Fsop Unit
  | [] => return ()
  | fd :: fds => do
    let _ ← sysClose fd
    closeFiles fds

def exit : Fsop Int := do
  closeFiles (List.finRange NOFILE)
  let cwd ← perform .takeCwd
  iput cwd
  perform .exit
  return 0

/-- A system call with its arguments; a string is what can be read at its address. -/
inductive Call
  | open (path : Text) (omode : Nat)
  | mkdir (path : Text)
  | mknod (path : Text) (major minor : Int)
  | link (old new : Text)
  | unlink (path : Text)
  | chdir (path : Text)
  | close (fd : Fin NOFILE)
  | dup (fd : Fin NOFILE)
  | fork
  | exit

def Call.body (ninodes : Nat) : Call → Fsop Int
  | .open path omode => sysOpen ninodes path omode
  | .mkdir path => sysMkdir ninodes path
  | .mknod path major minor => sysMknod ninodes path major minor
  | .link old new => sysLink old new
  | .unlink path => sysUnlink path
  | .chdir path => sysChdir path
  | .close fd => sysClose fd
  | .dup fd => sysDup fd
  | .fork => Fs.fork
  | .exit => Fs.exit

structure Image where
  ninodes : Nat
  size : Nat
  nmeta : Nat
  used : Nat → Bool
  disk : Nat → Dinode

/-- After userinit: the first process has the root directory, which has not been read yet, as its
working directory. -/
def boot (img : Image) : World where
  ninodes := img.ninodes
  size := img.size
  nmeta := img.nmeta
  used := img.used
  disk := img.disk
  inode := fun ip => ⟨if ip = 0 then ROOTINO else 0, if ip = 0 then 1 else 0, false, none, .zero⟩
  file := fun _ => ⟨0, none⟩
  proc := fun p => ⟨p = 0, if p = 0 then some 0 else none, fun _ => none, none⟩

/-- The pointers to inodes that the code of a process has in flight: those that it has been handed
or has taken out of a file structure or its own working directory, and has not put or stored
there. -/
def Op.pointers : (o : Op) → Reply o → Multiset Ip → Multiset Ip
  | .iget _ _, ip, ps => ip ::ₘ ps
  | .idupCwd, ip, ps => ip ::ₘ ps
  | .takeCwd, ip, ps => ip ::ₘ ps
  | .fileclose _, some (some ip), ps => ip ::ₘ ps
  | .iput ip, none, ps => ps.erase ip
  | .drop ip, _, ps => ps.erase ip
  | .setCwd ip, _, ps => ps.erase ip
  | .fileInit _ ip, _, ps => ps.erase ip
  | _, _, ps => ps

/-- The system when the processes run at the same time: what each has still to do of its call, and
its pointers. -/
structure Concurrent where
  world : World
  prog : ProcId → Fsop Int
  pointers : ProcId → Multiset Ip
  stopped : Option Panic

inductive Label
  | start (p : ProcId) (c : Call)
  | step (p : ProcId)

/-- A process that is back in user space makes a call, or one in the kernel runs its next section
if it does not have to wait for a lock. -/
def Concurrent.next (s : Concurrent) : Label → Option Concurrent
  | .start p c =>
    if s.stopped.isSome ∨ (s.world.proc p).live = false then none
    else match s.prog p with
      | .op _ _ => none
      | .pure _ => some { s with prog := Function.update s.prog p (c.body s.world.ninodes) }
  | .step p =>
    if s.stopped.isSome then none
    else match s.prog p with
      | .pure _ => none
      | .op o k => match o.step p s.world with
        | .ok (x, w) => some { s with
            world := w
            prog := Function.update s.prog p (k x)
            pointers := Function.update s.pointers p (o.pointers x (s.pointers p)) }
        | .error (.panic m) => some { s with stopped := some m }
        | .error .blocked => none

def Concurrent.init (img : Image) : Concurrent where
  world := boot img
  prog := fun _ => .pure 0
  pointers := fun _ => 0
  stopped := none

end Xv6.Fs
