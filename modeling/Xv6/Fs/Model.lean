import Xv6.Framework.Program
import Xv6.Param
import Mathlib.Data.List.FinRange

namespace Xv6.Fs

open Xv6.Framework

/-- Constants of kernel/param.h, kernel/fs.h and kernel/fcntl.h. -/
def NINODE : Nat := 50
def NFILE : Nat := 100
def NDEV : Nat := 10
def MAXPATH : Nat := 128
def ROOTINO : Nat := 1
def BSIZE : Nat := 1024
def NDIRECT : Nat := 12
def NINDIRECT : Nat := 256
def MAXFILE : Nat := NDIRECT + NINDIRECT
def DIRSIZ : Nat := 14
def O_RDONLY : Nat := 0x000
def O_CREATE : Nat := 0x200
def O_TRUNC : Nat := 0x400

def DIRENT : Nat := 16

instance : NeZero NINODE := ⟨by decide⟩

abbrev ProcId := Fin NPROC

abbrev Ip := Fin NINODE

/-- The bytes of a string before its NUL. -/
abbrev Text := List UInt8

def slash : UInt8 := 47
def dot : Text := [46]
def dotdot : Text := [46, 46]

/-- The value of an int stored in a short. -/
def short (n : Int) : Int := (n + 32768) % 65536 - 32768

/-- The types of kernel/stat.h, and the 0 of a free inode. -/
inductive FileType
  | free
  | dir
  | file
  | device
  deriving DecidableEq

structure Dirent where
  inum : Nat
  name : Text
  deriving DecidableEq

/-- An inode with what its blocks hold. `addrs` are the numbers of its data blocks, those of the
indirect block at the end, and `entries` is the contents of a directory: its size is that of the
entries. Regular files are never read or written here, so nothing is kept of their bytes. -/
structure Dinode where
  type : FileType
  major : Int
  minor : Int
  nlink : Int
  addrs : List Nat
  indirect : Option Nat
  entries : List Dirent
  deriving DecidableEq

def Dinode.zero : Dinode := ⟨.free, 0, 0, 0, [], none, []⟩

def Dinode.blocks (d : Dinode) : List Nat := d.addrs ++ d.indirect.toList

/-- A block added to the inode: the indirect block or a data block. -/
def Dinode.grow (d : Dinode) (indirect : Bool) (b : Nat) : Dinode :=
  if indirect then { d with indirect := some b } else { d with addrs := d.addrs ++ [b] }

def Dinode.shrink (d : Dinode) (indirect : Bool) (b : Nat) : Dinode :=
  if indirect then { d with indirect := none } else { d with addrs := d.addrs.erase b }

/-- A struct inode of the table: `lock` is the owner of its sleep-lock, and `copy` the fields that
ilock reads from the disk. -/
structure Inode where
  inum : Nat
  ref : Nat
  valid : Bool
  lock : Option ProcId
  copy : Dinode

/-- A struct file; `ip` is none for FD_NONE. -/
structure File where
  ref : Nat
  ip : Option Ip

/-- `iput` is the inode that the process is just freeing, between the two sections of iput that
hold itable.lock. -/
structure Proc where
  live : Bool
  cwd : Option Ip
  ofile : Fin NOFILE → Option (Fin NFILE)
  iput : Option Ip

inductive Panic
  | iget
  | ilock
  | ilockNoType
  | iunlock
  | sched
  | bmap
  | bfree
  | dirlookup
  | unlinkNlink
  | unlinkWritei
  | fileclose
  | filedup
  | zombieExit
  | fault
  deriving DecidableEq

/-- Why a process does not go on: a panic, or a sleep-lock that another holds. -/
inductive Stop
  | panic (m : Panic)
  | blocked
  deriving DecidableEq

/-- The disk and what the kernel keeps in memory about it. `ninodes` and `size` are those of the
superblock, the blocks below `nmeta` hold no data, and `used` is the bitmap. -/
structure World where
  ninodes : Nat
  size : Nat
  nmeta : Nat
  used : Nat → Bool
  disk : Nat → Dinode
  inode : Ip → Inode
  file : Fin NFILE → File
  proc : ProcId → Proc

namespace World

def setInode (w : World) (ip : Ip) (v : Inode) : World :=
  { w with inode := Function.update w.inode ip v }

def setDisk (w : World) (inum : Nat) (d : Dinode) : World :=
  { w with disk := Function.update w.disk inum d }

def setUsed (w : World) (b : Nat) (u : Bool) : World :=
  { w with used := Function.update w.used b u }

def setFile (w : World) (f : Fin NFILE) (v : File) : World :=
  { w with file := Function.update w.file f v }

def setProc (w : World) (p : ProcId) (v : Proc) : World :=
  { w with proc := Function.update w.proc p v }

end World

/-- The sections of the file system that run under itable.lock, a sleep-lock or a buffer lock.
`iget` is told apart when ialloc calls it. `acquiresleep` and `load` are the two halves of ilock,
`iput` is iput up to the release of itable.lock, `invalidate` clears ip->valid and releases the
sleep-lock, and `drop` is the rest of iput. `claim` is one turn of the loop of ialloc. Those of
processes and open files have no inode lock. -/
inductive Op
  | iget (inum : Nat) (ialloc : Bool)
  | idupCwd
  | acquiresleep (ip : Ip)
  | load (ip : Ip)
  | iunlock (ip : Ip)
  | iupdate (ip : Ip) (d : Dinode)
  | iput (ip : Ip)
  | invalidate (ip : Ip)
  | drop (ip : Ip)
  | claim (inum : Nat) (type : FileType)
  | balloc (ip : Ip) (indirect : Bool)
  | bfree (ip : Ip) (b : Nat) (indirect : Bool)
  | takeCwd
  | setCwd (ip : Ip)
  | filealloc
  | fileInit (fd : Fin NOFILE) (ip : Ip)
  | fileclose (fd : Fin NOFILE)
  | dup (fd : Fin NOFILE)
  | fork
  | exit
  | panic (m : Panic)

@[reducible] def Reply : Op → Type
  | .iget _ _ => Ip
  | .idupCwd => Ip
  | .load _ => Nat × Dinode
  | .iput _ => Option Dinode
  | .claim _ _ => Bool
  | .balloc _ _ => Option Nat
  | .takeCwd => Ip
  | .filealloc => Option (Fin NOFILE)
  | .fileclose _ => Option (Option Ip)
  | .dup _ => Option (Fin NOFILE)
  | .fork => Option ProcId
  | .panic _ => Empty
  | _ => Unit

namespace World

def iget (w : World) (inum : Nat) : Except Stop (Ip × World) :=
  match (List.finRange NINODE).find? fun ip => 0 < (w.inode ip).ref ∧ (w.inode ip).inum = inum with
  | some ip => .ok (ip, w.setInode ip { w.inode ip with ref := (w.inode ip).ref + 1 })
  | none =>
    match (List.finRange NINODE).find? fun ip => (w.inode ip).ref = 0 with
    | none => .error (.panic .iget)
    | some ip =>
      .ok (ip, w.setInode ip { w.inode ip with inum := inum, ref := 1, valid := false })

def idupCwd (w : World) (p : ProcId) : Except Stop (Ip × World) :=
  match (w.proc p).cwd with
  | none => .error (.panic .fault)
  | some ip => .ok (ip, w.setInode ip { w.inode ip with ref := (w.inode ip).ref + 1 })

def acquiresleep (w : World) (p : ProcId) (ip : Ip) : Except Stop (Unit × World) :=
  if (w.inode ip).ref < 1 then .error (.panic .ilock)
  else match (w.inode ip).lock with
    | some _ => .error .blocked
    | none => .ok ((), w.setInode ip { w.inode ip with lock := some p })

def load (w : World) (ip : Ip) : Except Stop ((Nat × Dinode) × World) :=
  let v := w.inode ip
  if v.valid then .ok ((v.inum, v.copy), w)
  else if (w.disk v.inum).type = .free then .error (.panic .ilockNoType)
  else .ok ((v.inum, w.disk v.inum),
    w.setInode ip { v with valid := true, copy := w.disk v.inum })

def iunlock (w : World) (p : ProcId) (ip : Ip) : Except Stop (Unit × World) :=
  if (w.inode ip).lock ≠ some p ∨ (w.inode ip).ref < 1 then .error (.panic .iunlock)
  else .ok ((), w.setInode ip { w.inode ip with lock := none })

/-- The fields of a locked inode are its owner's; they reach the table where they reach the
disk. -/
def iupdate (w : World) (ip : Ip) (d : Dinode) : World :=
  (w.setInode ip { w.inode ip with copy := d }).setDisk (w.inode ip).inum d

/-- To wait for the sleep-lock here would be to sleep with itable.lock held. -/
def iput (w : World) (p : ProcId) (ip : Ip) : Except Stop (Option Dinode × World) :=
  let v := w.inode ip
  if v.ref = 1 ∧ v.valid ∧ v.copy.nlink = 0 then
    match v.lock with
    | some _ => .error (.panic .sched)
    | none => .ok (some v.copy,
      (w.setInode ip { v with lock := some p }).setProc p { w.proc p with iput := some ip })
  else .ok (none, w.setInode ip { v with ref := v.ref - 1 })

def invalidate (w : World) (ip : Ip) : World :=
  w.setInode ip { w.inode ip with valid := false, lock := none }

def drop (w : World) (p : ProcId) (ip : Ip) : World :=
  (w.setInode ip { w.inode ip with ref := (w.inode ip).ref - 1 }).setProc p
    { w.proc p with iput := none }

def claim (w : World) (inum : Nat) (type : FileType) : Bool × World :=
  if (w.disk inum).type = .free then (true, w.setDisk inum { Dinode.zero with type := type })
  else (false, w)

/-- balloc, with the store of its result in ip->addrs. -/
def balloc (w : World) (ip : Ip) (indirect : Bool) : Option Nat × World :=
  match (List.range w.size).find? fun b => w.used b = false with
  | none => (none, w)
  | some b => (some b, (w.setUsed b true).setInode ip
      { w.inode ip with copy := (w.inode ip).copy.grow indirect b })

/-- bfree of a block of the inode, and the store of 0 in ip->addrs. -/
def bfree (w : World) (ip : Ip) (b : Nat) (indirect : Bool) : Except Stop (Unit × World) :=
  if w.used b = false then .error (.panic .bfree)
  else .ok ((), (w.setUsed b false).setInode ip
    { w.inode ip with copy := (w.inode ip).copy.shrink indirect b })

/-- The process gives up its working directory, to iput or for good. -/
def takeCwd (w : World) (p : ProcId) : Except Stop (Ip × World) :=
  match (w.proc p).cwd with
  | none => .error (.panic .fault)
  | some ip => .ok (ip, w.setProc p { w.proc p with cwd := none })

def setCwd (w : World) (p : ProcId) (ip : Ip) : World :=
  w.setProc p { w.proc p with cwd := some ip }

def fdalloc (w : World) (p : ProcId) (f : Fin NFILE) : Option (Fin NOFILE × World) :=
  match (List.finRange NOFILE).find? fun fd => (w.proc p).ofile fd = none with
  | none => none
  | some fd => some (fd,
      w.setProc p { w.proc p with ofile := Function.update (w.proc p).ofile fd (some f) })

/-- filealloc and fdalloc. If there is no descriptor left the file structure, still of type
FD_NONE, is closed again. -/
def filealloc (w : World) (p : ProcId) : Option (Fin NOFILE) × World :=
  match (List.finRange NFILE).find? fun f => (w.file f).ref = 0 with
  | none => (none, w)
  | some f =>
    match (w.setFile f { w.file f with ref := 1 }).fdalloc p f with
    | none => (none, w.setFile f ⟨0, none⟩)
    | some (fd, w') => (some fd, w')

def fileInit (w : World) (p : ProcId) (fd : Fin NOFILE) (ip : Ip) : Except Stop (Unit × World) :=
  match (w.proc p).ofile fd with
  | none => .error (.panic .fault)
  | some f => .ok ((), w.setFile f { w.file f with ip := some ip })

/-- argfd, the store to ofile and the section of fileclose: none for a bad descriptor, and the
inode that is to be put when the last reference is gone. -/
def fileclose (w : World) (p : ProcId) (fd : Fin NOFILE) :
    Except Stop (Option (Option Ip) × World) :=
  match (w.proc p).ofile fd with
  | none => .ok (none, w)
  | some f =>
    let w' := w.setProc p { w.proc p with ofile := Function.update (w.proc p).ofile fd none }
    if (w.file f).ref < 1 then .error (.panic .fileclose)
    else if 0 < (w.file f).ref - 1 then
      .ok (some none, w'.setFile f { w.file f with ref := (w.file f).ref - 1 })
    else .ok (some (w.file f).ip, w'.setFile f ⟨0, none⟩)

def filedup (w : World) (f : Fin NFILE) : Except Stop World :=
  if (w.file f).ref < 1 then .error (.panic .filedup)
  else .ok (w.setFile f { w.file f with ref := (w.file f).ref + 1 })

def dup (w : World) (p : ProcId) (fd : Fin NOFILE) :
    Except Stop (Option (Fin NOFILE) × World) :=
  match (w.proc p).ofile fd with
  | none => .ok (none, w)
  | some f =>
    match w.fdalloc p f with
    | none => .ok (none, w)
    | some (fd', w') => match w'.filedup f with
      | .ok w'' => .ok (some fd', w'')
      | .error e => .error e

def dupFiles (ofile : Fin NOFILE → Option (Fin NFILE)) :
    List (Fin NOFILE) → World → Except Stop World
  | [], w => .ok w
  | fd :: fds, w => match ofile fd with
    | none => dupFiles ofile fds w
    | some f => match w.filedup f with
      | .ok w' => dupFiles ofile fds w'
      | .error e => .error e

/-- What fork does with files; its only section with an inode is that of idup. -/
def fork (w : World) (p : ProcId) : Except Stop (Option ProcId × World) :=
  match (List.finRange NPROC).find? fun np => (w.proc np).live = false with
  | none => .ok (none, w)
  | some np =>
    match dupFiles (w.proc p).ofile (List.finRange NOFILE) w with
    | .error e => .error e
    | .ok w' => match w'.idupCwd p with
      | .error e => .error e
      | .ok (ip, w'') => .ok (some np, w''.setProc np
          ⟨true, some ip, (w.proc p).ofile, (w.proc np).iput⟩)

/-- The end of exit. A slot can be used again as soon as its process is gone. -/
def exit (w : World) (p : ProcId) : World :=
  w.setProc p { w.proc p with live := false }

end World

def Op.exec (p : ProcId) : (o : Op) → World → Except Stop (Reply o × World)
  | .iget inum _, w => w.iget inum
  | .idupCwd, w => w.idupCwd p
  | .acquiresleep ip, w => w.acquiresleep p ip
  | .load ip, w => w.load ip
  | .iunlock ip, w => w.iunlock p ip
  | .iupdate ip d, w => .ok ((), w.iupdate ip d)
  | .iput ip, w => w.iput p ip
  | .invalidate ip, w => .ok ((), w.invalidate ip)
  | .drop ip, w => .ok ((), w.drop p ip)
  | .claim inum type, w => .ok (w.claim inum type)
  | .balloc ip indirect, w => .ok (w.balloc ip indirect)
  | .bfree ip b indirect, w => w.bfree ip b indirect
  | .takeCwd, w => w.takeCwd p
  | .setCwd ip, w => .ok ((), w.setCwd p ip)
  | .filealloc, w => .ok (w.filealloc p)
  | .fileInit fd ip, w => w.fileInit p fd ip
  | .fileclose fd, w => w.fileclose p fd
  | .dup fd, w => w.dup p fd
  | .fork, w => w.fork p
  | .exit, w => .ok ((), w.exit p)
  | .panic m, _ => .error (.panic m)

/-- A process that has exited never runs again; exit panics after its sched. -/
def Op.step (p : ProcId) (o : Op) (w : World) : Except Stop (Reply o × World) :=
  if (w.proc p).live = false then .error (.panic .zombieExit) else o.exec p w

abbrev Fsop := Prog Op Reply

def perform (o : Op) : Fsop (Reply o) := Prog.perform o

def panic {α : Type} (m : Panic) : Fsop α := .op (.panic m) Empty.elim

def iget (inum : Nat) : Fsop Ip := perform (.iget inum false)

def iupdate (ip : Ip) (d : Dinode) : Fsop Unit := perform (.iupdate ip d)

def iunlock (ip : Ip) : Fsop Unit := perform (.iunlock ip)

def ilock (ip : Ip) : Fsop (Nat × Dinode) := do
  perform (.acquiresleep ip)
  perform (.load ip)

/-- The loop of ialloc from `inum` on, with `n` numbers to go. -/
def iallocFrom (type : FileType) : Nat → Nat → Fsop (Option (Ip × Nat))
  | 0, _ => return none
  | n + 1, inum => do
    if ← perform (.claim inum type) then do
      let ip ← perform (.iget inum true)
      return some (ip, inum)
    else iallocFrom type n (inum + 1)

def ialloc (ninodes : Nat) (type : FileType) : Fsop (Option (Ip × Nat)) :=
  iallocFrom type (ninodes - 1) 1

def bfreeAll (ip : Ip) : List Nat → Fsop Unit
  | [] => return ()
  | b :: bs => do
    perform (.bfree ip b false)
    bfreeAll ip bs

def itrunc (ip : Ip) (d : Dinode) : Fsop Dinode := do
  bfreeAll ip d.addrs
  match d.indirect with
  | none => pure ()
  | some b => perform (.bfree ip b true)
  let d' : Dinode := { d with addrs := [], indirect := none, entries := [] }
  iupdate ip d'
  return d'

def iput (ip : Ip) : Fsop Unit := do
  match ← perform (.iput ip) with
  | none => return ()
  | some d => do
    let d' ← itrunc ip d
    iupdate ip { d' with type := .free }
    perform (.invalidate ip)
    perform (.drop ip)

def iunlockput (ip : Ip) : Fsop Unit := do
  iunlock ip
  iput ip

def bmapData (ip : Ip) (d : Dinode) : Fsop (Option Nat × Dinode) := do
  match ← perform (.balloc ip false) with
  | none => return (none, d)
  | some b => return (some b, d.grow false b)

/-- Files have no holes, so the block is there or it is the next one. -/
def bmap (ip : Ip) (d : Dinode) (bn : Nat) : Fsop (Option Nat × Dinode) :=
  match d.addrs[bn]? with
  | some addr => return (some addr, d)
  | none =>
    if bn < NDIRECT then bmapData ip d
    else if bn - NDIRECT < NINDIRECT then
      match d.indirect with
      | some _ => bmapData ip d
      | none => do
        match ← perform (.balloc ip true) with
        | none => return (none, d)
        | some b => bmapData ip (d.grow true b)
    else panic .bmap

/-- One entry of a directory overwritten, or added at its end. -/
def putEntry (es : List Dirent) (k : Nat) (de : Dirent) : List Dirent :=
  if k < es.length then es.set k de else es ++ [de]

/-- writei of entry `k` of a directory. An entry does not cross a block. -/
def writei (ip : Ip) (d : Dinode) (k : Nat) (de : Dirent) : Fsop (Bool × Dinode) :=
  if d.entries.length < k then return (false, d)
  else if MAXFILE * BSIZE < k * DIRENT + DIRENT then return (false, d)
  else do
    match ← bmap ip d (k * DIRENT / BSIZE) with
    | (none, d') => do
      iupdate ip d'
      return (false, d')
    | (some _, d') => do
      iupdate ip { d' with entries := putEntry d'.entries k de }
      return (true, { d' with entries := putEntry d'.entries k de })

def namecmp (s t : Text) : Bool := s.take DIRSIZ = t.take DIRSIZ

def lookup (es : List Dirent) (name : Text) : Option Nat :=
  es.findIdx? fun de => de.inum ≠ 0 ∧ namecmp name de.name

def dirlookup (d : Dinode) (name : Text) : Fsop (Option (Ip × Nat)) :=
  if d.type ≠ .dir then panic .dirlookup
  else match lookup d.entries name with
    | none => return none
    | some k => do
      let ip ← iget ((d.entries[k]?.map Dirent.inum).getD 0)
      return some (ip, k)

/-- The inode number is stored in an unsigned short. -/
def dirlink (dp : Ip) (d : Dinode) (name : Text) (inum : Nat) : Fsop (Bool × Dinode) := do
  match ← dirlookup d name with
  | some (ip, _) => do
    iput ip
    return (false, d)
  | none =>
    writei dp d (d.entries.findIdx fun de => de.inum = 0) ⟨inum % 65536, name.take DIRSIZ⟩

/-- The next element of a path and what follows it. -/
def skipelem (path : Text) : Option (Text × Text) :=
  match path.dropWhile (· = slash) with
  | [] => none
  | c :: s =>
    some (((c :: s).takeWhile (· ≠ slash)).take DIRSIZ,
      ((c :: s).dropWhile (· ≠ slash)).dropWhile (· = slash))

/-- The elements that skipelem finds one after the other, at most `fuel`. -/
def elementsFrom : Nat → Text → List Text
  | 0, _ => []
  | fuel + 1, path => match skipelem path with
    | none => []
    | some (name, rest) => name :: elementsFrom fuel rest

/-- Each element has a byte at least. -/
def elements (path : Text) : List Text := elementsFrom path.length path

def namexFrom (parent : Bool) (ip : Ip) : List Text → Fsop (Option (Ip × Text))
  | [] =>
    if parent then do
      iput ip
      return none
    else return some (ip, [])
  | name :: rest => do
    let (_, d) ← ilock ip
    if d.type ≠ .dir then do
      iunlockput ip
      return none
    else if parent ∧ rest = [] then do
      iunlock ip
      return some (ip, name)
    else match ← dirlookup d name with
      | none => do
        iunlockput ip
        return none
      | some (next, _) => do
        iunlockput ip
        namexFrom parent next rest

def namex (path : Text) (parent : Bool) : Fsop (Option (Ip × Text)) := do
  let ip ← if path.head? = some slash then iget ROOTINO else perform .idupCwd
  namexFrom parent ip (elements path)

def namei (path : Text) : Fsop (Option (Ip × Text)) := namex path false

def nameiparent (path : Text) : Fsop (Option (Ip × Text)) := namex path true

end Xv6.Fs
