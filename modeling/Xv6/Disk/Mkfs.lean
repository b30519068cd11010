import Xv6.Disk.Layout

namespace Xv6.Disk

open Xv6.Framework

def FSSIZE : Nat := 2000
def NINODES : Nat := 200
def FSMAGIC : UInt32 := 0x10203040

namespace Mkfs

def nbitmap : Nat := FSSIZE / BPB + 1
def ninodeblocks : Nat := NINODES / IPB + 1
def nmeta : Nat := 2 + nlog + ninodeblocks + nbitmap
def nblocks : Nat := FSSIZE - nmeta

/-- The super block that mkfs computes. -/
def sb : Superblock where
  size := FSSIZE
  nblocks := nblocks
  ninodes := NINODES
  inodestart := 2 + nlog
  bmapstart := 2 + nlog + ninodeblocks

def sbBytes : Bytes := fun i =>
  Bytes.byteOf ([FSMAGIC.toNat, sb.size, sb.nblocks, sb.ninodes, nlog, 2, sb.inodestart,
    sb.bmapstart].getD (i / 4) 0) (i % 4)

/-- The end of a run that fails: a sector beyond the end of the image cannot be read, or an
assertion does not hold. -/
inductive Die
  | read
  | assertion
  deriving DecidableEq

structure State where
  disk : Image
  freeinode : Nat
  freeblock : Nat

def rsect (m : State) (sec : Nat) : Except Die Bytes :=
  if sec < FSSIZE then .ok (m.disk sec) else .error .read

def wsect (m : State) (sec : Nat) (buf : Bytes) : State :=
  { m with disk := Function.update m.disk sec buf }

def winode (m : State) (inum : Nat) (x : Dinode) : Except Die State := do
  let buf ← rsect m (sb.IBLOCK inum)
  return wsect m (sb.IBLOCK inum) (buf.copy (inum % IPB * DINODE) DINODE x.bytes)

def rinode (m : State) (inum : Nat) : Except Die Dinode := do
  let buf ← rsect m (sb.IBLOCK inum)
  return Dinode.read buf (inum % IPB * DINODE)

def ialloc (m : State) (type : UInt16) : Except Die (Nat × State) := do
  let m' ← winode { m with freeinode := m.freeinode + 1 } m.freeinode
    { Dinode.zero with type := type, nlink := 1 }
  return (m.freeinode, m')

def grab (m : State) : UInt32 × State :=
  (UInt32.ofNat m.freeblock, { m with freeblock := m.freeblock + 1 })

def indirectOf (m : State) (x : Dinode) : State × Dinode :=
  if x.ind = 0 then
    let (b, m) := grab m
    (m, x.setAddr (Fin.last NDIRECT) b)
  else (m, x)

def blockOf (m : State) (x : Dinode) (fbn : Nat) : Except Die (UInt32 × State × Dinode) :=
  if fbn < NDIRECT then
    if x.addrs (Fin.ofNat _ fbn) = 0 then
      let (b, m) := grab m
      .ok (b, m, x.setAddr (Fin.ofNat _ fbn) b)
    else .ok (x.addrs (Fin.ofNat _ fbn), m, x)
  else do
    let (m, x) := indirectOf m x
    let indirect ← rsect m x.ind.toNat
    let e := indirect.u32 (4 * (fbn - NDIRECT))
    if e = 0 then
      let (b, m) := grab m
      .ok (b, wsect m x.ind.toNat (indirect.setU32 (4 * (fbn - NDIRECT)) b), x)
    else .ok (e, m, x)

def appendLoop : Nat → State → Dinode → Nat → List UInt8 → Except Die (State × Dinode × Nat)
  | 0, m, x, off, _ => .ok (m, x, off)
  | fuel + 1, m, x, off, p =>
    if p = [] then .ok (m, x, off)
    else do
      let fbn := off / BSIZE
      if MAXFILE ≤ fbn then .error .assertion
      else
        let (b, m, x) ← blockOf m x fbn
        let n1 := min p.length ((fbn + 1) * BSIZE - off)
        let buf ← rsect m b.toNat
        let m := wsect m b.toNat (buf.copy (off - fbn * BSIZE) n1 (Bytes.ofList p))
        appendLoop fuel m x (off + n1) (p.drop n1)

def iappend (m : State) (inum : Nat) (p : List UInt8) : Except Die State := do
  let x ← rinode m inum
  let (m, x, off) ← appendLoop p.length m x x.size.toNat p
  winode m inum { x with size := UInt32.ofNat off }

/-- The bit map with the first `used` bits set. -/
def balloc (m : State) (used : Nat) : Except Die State :=
  if used < BPB then .ok (wsect m sb.bmapstart ((List.range used).foldl setBit fun _ => 0))
  else .error .assertion

def dirent (inum : Nat) (name : List UInt8) : List UInt8 :=
  Bytes.byteOf inum 0 :: Bytes.byteOf inum 1 ::
    (List.range DIRSIZ).map fun i => name.getD i 0

/-- An input file: its name on the command line, and its contents as read returns them. -/
structure File where
  path : List UInt8
  chunks : List (List UInt8)

def slash : UInt8 := 47
def underscore : UInt8 := 95

def user : List UInt8 := [117, 115, 101, 114, 47]

def base (path : List UInt8) : List UInt8 := if user.isPrefixOf path then path.drop 5 else path

def shortname (path : List UInt8) : List UInt8 :=
  match base path with
  | c :: rest => if c = underscore then rest else c :: rest
  | [] => []

def addFile (m : State) (f : File) : Except Die State := do
  if slash ∈ base f.path then .error .assertion
  else if DIRSIZ < (shortname f.path).length then .error .assertion
  else
    let (inum, m) ← ialloc m T_FILE
    let m ← iappend m ROOTINO (dirent inum (shortname f.path))
    f.chunks.foldlM (fun m c => iappend m inum c) m

/-- An image of zeros with the super block in its place. -/
def zeroed : State where
  disk := Function.update (fun _ _ => 0) 1 (Bytes.copy (fun _ => 0) 0 32 sbBytes)
  freeinode := 1
  freeblock := nmeta

def makeRoot : Except Die State := do
  let (rootino, m) ← ialloc zeroed T_DIR
  if rootino ≠ ROOTINO then .error .assertion
  else
    let m ← iappend m rootino (dirent rootino [46])
    iappend m rootino (dirent rootino [46, 46])

def fixRoot (m : State) : Except Die State := do
  let x ← rinode m ROOTINO
  winode m ROOTINO { x with size := UInt32.ofNat ((x.size.toNat / BSIZE + 1) * BSIZE) }

def main (files : List File) : Except Die Image := do
  let m ← makeRoot
  let m ← files.foldlM addFile m
  let m ← fixRoot m
  let m ← balloc m m.freeblock
  return m.disk

end Mkfs

def fsinit (d : Image) : Option Superblock :=
  if (d 1).u32 0 = FSMAGIC then some {
    size := ((d 1).u32 4).toNat
    nblocks := ((d 1).u32 8).toNat
    ninodes := ((d 1).u32 12).toNat
    inodestart := ((d 1).u32 24).toNat
    bmapstart := ((d 1).u32 28).toNat }
  else none

end Xv6.Disk
