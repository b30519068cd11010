import Xv6.Disk.Layout

namespace Xv6.Disk

open Xv6.Framework

inductive Panic
  | freeingFreeBlock
  | bmapRange
  | iget
  | ilock
  | ilockNoType
  | dirlookup
  | dirlookupRead
  | dirlinkRead
  | unlinkWritei
  deriving DecidableEq

/-- A new block, zeroed, or 0 if there is none. The blocks are tried in the order of their
numbers. -/
def balloc (sb : Superblock) (d : Image) : UInt32 × Image :=
  match (List.range sb.size).find? fun b => !d.bit sb b with
  | some b => (UInt32.ofNat b, Function.update (d.mark sb b) b fun _ => 0)
  | none => (0, d)

def bfree (sb : Superblock) (d : Image) (b : UInt32) : Except Panic Image :=
  if d.bit sb b.toNat = false then .error .freeingFreeBlock else .ok (d.clear sb b.toNat)

/-- The indirect block of an inode; it is allocated if need be. -/
def loadIndirect (sb : Superblock) (d : Image) (x : Dinode) : UInt32 × Image × Dinode :=
  if x.ind = 0 then
    let (addr, d) := balloc sb d
    if addr = 0 then (0, d, x) else (addr, d, x.setAddr (Fin.last NDIRECT) addr)
  else (x.ind, d, x)

/-- The address of the block of an inode with an index; it is allocated if need be. The inode is
the one in memory. -/
def bmap (sb : Superblock) (d : Image) (x : Dinode) (bn : Nat) :
    Except Panic (UInt32 × Image × Dinode) :=
  if bn < NDIRECT then
    if x.addrs (Fin.ofNat _ bn) = 0 then
      let (addr, d) := balloc sb d
      if addr = 0 then .ok (0, d, x) else .ok (addr, d, x.setAddr (Fin.ofNat _ bn) addr)
    else .ok (x.addrs (Fin.ofNat _ bn), d, x)
  else if bn - NDIRECT < NINDIRECT then
    let (ind, d, x) := loadIndirect sb d x
    if ind = 0 then .ok (0, d, x)
    else
      let a := (d ind.toNat).u32 (4 * (bn - NDIRECT))
      if a = 0 then
        let (addr, d) := balloc sb d
        if addr = 0 then .ok (0, d, x)
        else .ok (addr, Function.update d ind.toNat
          ((d ind.toNat).setU32 (4 * (bn - NDIRECT)) addr), x)
      else .ok (a, d, x)
  else .error .bmapRange

def freeDirect (sb : Superblock) :
    List (Fin (NDIRECT + 1)) → Image → Dinode → Except Panic (Image × Dinode)
  | [], d, x => .ok (d, x)
  | k :: ks, d, x =>
    if x.addrs k = 0 then freeDirect sb ks d x
    else do
      let d ← bfree sb d (x.addrs k)
      freeDirect sb ks d (x.setAddr k 0)

def freeEntries (sb : Superblock) (a : Bytes) : List (Fin NINDIRECT) → Image → Except Panic Image
  | [], d => .ok d
  | j :: js, d =>
    if a.u32 (4 * j) = 0 then freeEntries sb a js d
    else do
      let d ← bfree sb d (a.u32 (4 * j))
      freeEntries sb a js d

def freeIndirect (sb : Superblock) (d : Image) (x : Dinode) : Except Panic (Image × Dinode) :=
  if x.ind = 0 then .ok (d, x)
  else do
    let d ← freeEntries sb (d x.ind.toNat) (List.finRange NINDIRECT) d
    let d ← bfree sb d x.ind
    return (d, x.setAddr (Fin.last NDIRECT) 0)

def itrunc (sb : Superblock) (d : Image) (inum : Nat) (x : Dinode) :
    Except Panic (Image × Dinode) := do
  let (d, x) ← freeDirect sb ((List.finRange NDIRECT).map Fin.castSucc) d x
  let (d, x) ← freeIndirect sb d x
  let x := { x with size := 0 }
  return (d.setInode sb inum x, x)

/-- The loop of readi: the bytes read so far, and whether the copy went well. The first `limit`
bytes of the destination can be written. -/
def readLoop (sb : Superblock) (limit n : Nat) :
    Nat → Image → Dinode → Nat → List UInt8 → Except Panic (Bool × List UInt8 × Image × Dinode)
  | 0, d, x, _, out => .ok (true, out, d, x)
  | fuel + 1, d, x, off, out =>
    if out.length < n then do
      let (addr, d, x) ← bmap sb d x (off / BSIZE)
      if addr = 0 then .ok (true, out, d, x)
      else
        let m := min (n - out.length) (BSIZE - off % BSIZE)
        if limit < out.length + m then .ok (false, out, d, x)
        else
          readLoop sb limit n fuel d x (off + m) (out ++ (d addr.toNat).slice (off % BSIZE) m)
    else .ok (true, out, d, x)

/-- Returns the number of bytes and the bytes. -/
def readi (sb : Superblock) (d : Image) (x : Dinode) (off n : UInt32) (limit : Nat) :
    Except Panic (Int × List UInt8 × Image × Dinode) :=
  if x.size < off ∨ off + n < off then .ok (0, [], d, x)
  else do
    let n := if x.size < off + n then x.size - off else n
    let (fine, out, d, x) ← readLoop sb limit n.toNat n.toNat d x off.toNat []
    return (if fine then out.length else -1, out, d, x)

/-- The loop of writei: the next offset and the bytes written so far. The first `limit` bytes of the
source can be read; those of a block whose copy fails are in the block already. -/
def writeLoop (sb : Superblock) (src : Bytes) (limit n : Nat) :
    Nat → Image → Dinode → Nat → Nat → Except Panic (Nat × Nat × Image × Dinode)
  | 0, d, x, off, tot => .ok (off, tot, d, x)
  | fuel + 1, d, x, off, tot =>
    if tot < n then do
      let (addr, d, x) ← bmap sb d x (off / BSIZE)
      if addr = 0 then .ok (off, tot, d, x)
      else
        let m := min (n - tot) (BSIZE - off % BSIZE)
        let fill := fun m => Function.update d addr.toNat
          ((d addr.toNat).copy (off % BSIZE) m fun i => src (tot + i))
        if limit < tot + m then .ok (off, tot, fill (limit - tot), x)
        else
          writeLoop sb src limit n fuel (fill m) x (off + m) (tot + m)
    else .ok (off, tot, d, x)

def writei (sb : Superblock) (d : Image) (inum : Nat) (x : Dinode) (src : Bytes) (off n : UInt32)
    (limit : Nat) : Except Panic (Int × Image × Dinode) :=
  if x.size < off ∨ off + n < off then .ok (-1, d, x)
  else if MAXFILE * BSIZE < (off + n).toNat then .ok (-1, d, x)
  else do
    let (off, tot, d, x) ← writeLoop sb src limit n.toNat n.toNat d x off.toNat 0
    let x := if x.size.toNat < off then { x with size := UInt32.ofNat off } else x
    return (tot, d.setInode sb inum x, x)

def strncmp (p q : Bytes) : Nat → Int
  | 0 => 0
  | n + 1 =>
    if p 0 ≠ 0 ∧ p 0 = q 0 then strncmp (fun i => p (i + 1)) (fun i => q (i + 1)) n
    else (p 0).toNat - (q 0).toNat

def namecmp (s t : Bytes) : Int := strncmp s t DIRSIZ

/-- The bytes that strncpy stores: those of the string up to its end, then zeros. -/
def strncpy : Nat → Bytes → List UInt8
  | 0, _ => []
  | n + 1, t => if t 0 = 0 then 0 :: List.replicate n 0 else t 0 :: strncpy n fun i => t (i + 1)

structure Inode where
  inum : Nat
  ref : Nat
  valid : Bool
  din : Dinode

/-- The disk as the buffer cache shows it, and the inode table. -/
structure Kernel where
  disk : Image
  inode : Fin NINODE → Inode

namespace Kernel

def setInode (k : Kernel) (ip : Fin NINODE) (v : Inode) : Kernel :=
  { k with inode := Function.update k.inode ip v }

/-- The inode in memory and the disk, after a function that works on one inode. -/
def store (k : Kernel) (ip : Fin NINODE) (d : Image) (x : Dinode) : Kernel :=
  { k.setInode ip { k.inode ip with din := x } with disk := d }

def iget (k : Kernel) (inum : Nat) : Except Panic (Fin NINODE × Kernel) :=
  match (List.finRange NINODE).find? fun e => 0 < (k.inode e).ref ∧ (k.inode e).inum = inum with
  | some e => .ok (e, k.setInode e { k.inode e with ref := (k.inode e).ref + 1 })
  | none =>
    match (List.finRange NINODE).find? fun e => (k.inode e).ref = 0 with
    | some e => .ok (e, k.setInode e { k.inode e with inum, ref := 1, valid := false })
    | none => .error .iget

def idup (k : Kernel) (ip : Fin NINODE) : Kernel :=
  k.setInode ip { k.inode ip with ref := (k.inode ip).ref + 1 }

def ilock (sb : Superblock) (k : Kernel) (ip : Fin NINODE) : Except Panic Kernel :=
  if (k.inode ip).ref < 1 then .error .ilock
  else if (k.inode ip).valid then .ok k
  else
    let x := k.disk.inode sb (k.inode ip).inum
    if x.type = 0 then .error .ilockNoType
    else .ok (k.setInode ip { k.inode ip with valid := true, din := x })

def iupdate (sb : Superblock) (k : Kernel) (ip : Fin NINODE) : Kernel :=
  { k with disk := k.disk.setInode sb (k.inode ip).inum (k.inode ip).din }

def iput (sb : Superblock) (k : Kernel) (ip : Fin NINODE) : Except Panic Kernel := do
  let k ←
    if (k.inode ip).ref = 1 ∧ (k.inode ip).valid ∧ (k.inode ip).din.nlink = 0 then do
      let (d, x) ← itrunc sb k.disk (k.inode ip).inum (k.inode ip).din
      let x := { x with type := 0 }
      let d := d.setInode sb (k.inode ip).inum x
      .ok { k.setInode ip { k.inode ip with valid := false, din := x } with disk := d }
    else .ok k
  return k.setInode ip { k.inode ip with ref := (k.inode ip).ref - 1 }

def ialloc (sb : Superblock) (k : Kernel) (type : UInt16) :
    Except Panic (Option (Fin NINODE) × Kernel) :=
  match (List.range' 1 (sb.ninodes - 1)).find? fun i => (k.disk.inode sb i).type = 0 with
  | some i => do
    let (ip, k) ← Kernel.iget
      { k with disk := k.disk.setInode sb i { Dinode.zero with type := type } } i
    return (some ip, k)
  | none => .ok (none, k)

def lookLoop (sb : Superblock) (dp : Fin NINODE) (name : Bytes) :
    Nat → Kernel → UInt32 → Except Panic (Option (Fin NINODE × UInt32) × Kernel)
  | 0, k, _ => .ok (none, k)
  | fuel + 1, k, off =>
    if off < (k.inode dp).din.size then do
      let (r, de, d, x) ← readi sb k.disk (k.inode dp).din off (UInt32.ofNat DIRENT) DIRENT
      let k := k.store dp d x
      if r ≠ DIRENT then .error .dirlookupRead
      else
        let de := Bytes.ofList de
        let inum := (de.u16 0).toNat
        if inum = 0 then lookLoop sb dp name fuel k (off + UInt32.ofNat DIRENT)
        else if namecmp name (fun i => de (2 + i)) = 0 then do
          let (ip, k) ← k.iget inum
          return (some (ip, off), k)
        else
          lookLoop sb dp name fuel k (off + UInt32.ofNat DIRENT)
    else .ok (none, k)

/-- The inode of an entry of a directory, with a reference, and the offset of the entry. -/
def dirlookup (sb : Superblock) (k : Kernel) (dp : Fin NINODE) (name : Bytes) :
    Except Panic (Option (Fin NINODE × UInt32) × Kernel) :=
  if (k.inode dp).din.type ≠ T_DIR then .error .dirlookup
  else lookLoop sb dp name ((k.inode dp).din.size.toNat / DIRENT + 1) k 0

def linkLoop (sb : Superblock) (dp : Fin NINODE) :
    Nat → Kernel → UInt32 → Except Panic (UInt32 × Kernel)
  | 0, k, off => .ok (off, k)
  | fuel + 1, k, off =>
    if off < (k.inode dp).din.size then do
      let (r, de, d, x) ← readi sb k.disk (k.inode dp).din off (UInt32.ofNat DIRENT) DIRENT
      let k := k.store dp d x
      if r ≠ DIRENT then .error .dirlinkRead
      else if (Bytes.ofList de).u16 0 = 0 then .ok (off, k)
      else linkLoop sb dp fuel k (off + UInt32.ofNat DIRENT)
    else .ok (off, k)

def dirent (inum : UInt16) (name : Bytes) : List UInt8 :=
  (List.range 2).map (Bytes.byteOf inum.toNat) ++ strncpy DIRSIZ name

def dirlink (sb : Superblock) (k : Kernel) (dp : Fin NINODE) (name : Bytes) (inum : UInt16) :
    Except Panic (Int × Kernel) := do
  match ← k.dirlookup sb dp name with
  | (some (ip, _), k) => do
    let k ← k.iput sb ip
    return (-1, k)
  | (none, k) => do
    let (off, k) ← linkLoop sb dp ((k.inode dp).din.size.toNat / DIRENT + 1) k 0
    let (r, d, x) ← writei sb k.disk (k.inode dp).inum (k.inode dp).din
      (Bytes.ofList (dirent inum name)) off (UInt32.ofNat DIRENT) DIRENT
    let k := k.store dp d x
    if r ≠ DIRENT then return (-1, k) else return (0, k)

/-- What sys_unlink does to the directory: it looks the name up, zeroes the entry and gives the
reference back. -/
def dirunlink (sb : Superblock) (k : Kernel) (dp : Fin NINODE) (name : Bytes) :
    Except Panic (Int × Kernel) := do
  match ← k.dirlookup sb dp name with
  | (none, k) => return (-1, k)
  | (some (ip, off), k) => do
    let (r, d, x) ← writei sb k.disk (k.inode dp).inum (k.inode dp).din (fun _ => 0) off
      (UInt32.ofNat DIRENT) DIRENT
    let k := k.store dp d x
    if r ≠ DIRENT then .error .unlinkWritei
    else do
      let k ← k.iput sb ip
      return (0, k)

end Kernel

/-- The complete operations on inodes, by callers that have a reference. `create` is what create
and mkdir do with what ialloc returns; `links` are the changes of nlink by create, link and unlink;
`get` is iget of a number that a directory entry has. -/
inductive Op
  | create (type major minor nlink : UInt16)
  | get (inum : Nat)
  | dup (ip : Fin NINODE)
  | put (ip : Fin NINODE)
  | trunc (ip : Fin NINODE)
  | write (ip : Fin NINODE) (src : Bytes) (off n : UInt32) (limit : Nat)
  | links (ip : Fin NINODE) (nlink : UInt16)

namespace Op

/-- A caller has a reference; the numbers in directory entries are those of inodes of the disk. -/
def Enabled (sb : Superblock) (k : Kernel) : Op → Prop
  | .create type _ _ _ => type ≠ 0
  | .get inum => inum < sb.inums
  | .dup ip => 0 < (k.inode ip).ref
  | .put ip => 0 < (k.inode ip).ref
  | .trunc ip => 0 < (k.inode ip).ref
  | .write ip _ _ _ _ => 0 < (k.inode ip).ref
  | .links ip _ => 0 < (k.inode ip).ref

instance (sb : Superblock) (k : Kernel) (o : Op) : Decidable (o.Enabled sb k) := by
  cases o <;> unfold Enabled <;> infer_instance

def exec (sb : Superblock) (k : Kernel) : Op → Except Panic Kernel
  | .create type major minor nlink => do
    match ← k.ialloc sb type with
    | (none, k) => return k
    | (some ip, k) => do
      let k ← k.ilock sb ip
      let k := k.setInode ip { k.inode ip with din := { (k.inode ip).din with major, minor, nlink } }
      return k.iupdate sb ip
  | .get inum => do return (← k.iget inum).2
  | .dup ip => return k.idup ip
  | .put ip => k.iput sb ip
  | .trunc ip => do
    let k ← k.ilock sb ip
    let (d, x) ← itrunc sb k.disk (k.inode ip).inum (k.inode ip).din
    return k.store ip d x
  | .write ip src off n limit => do
    let k ← k.ilock sb ip
    let (_, d, x) ← writei sb k.disk (k.inode ip).inum (k.inode ip).din src off n limit
    return k.store ip d x
  | .links ip nlink => do
    let k ← k.ilock sb ip
    let k := k.setInode ip { k.inode ip with din := { (k.inode ip).din with nlink } }
    return k.iupdate sb ip

end Op

structure State where
  kernel : Kernel
  stopped : Option Panic

def State.next (sb : Superblock) (s : State) (o : Op) : Option State :=
  if s.stopped = none ∧ o.Enabled sb s.kernel then
    match o.exec sb s.kernel with
    | .ok k => some { s with kernel := k }
    | .error e => some { s with stopped := some e }
  else none

def boot (d : Image) : State where
  kernel := ⟨d, fun _ => ⟨0, 0, false, .zero⟩⟩
  stopped := none

end Xv6.Disk
