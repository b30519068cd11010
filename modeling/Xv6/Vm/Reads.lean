import Xv6.Console.Model
import Xv6.Disk.Kernel
import Xv6.Pipe.Model
import Xv6.Vm.Copies

/-! # fileread

The reads of pipes, of the console and of inodes, down to the bytes of user memory.
-/

namespace Xv6.Vm

open Xv6.Framework
open Xv6.Pipes (Pipe)
open Xv6.Console (Cons ctrlD newline)
open Xv6.Disk (Superblock Image Dinode bmap)
open Xv6.Fs (BSIZE NDEV NDIRECT NINDIRECT MAXFILE)

/-- The panics of vm.c and those of fs.c. -/
inductive Fault
  | vm (e : Memory.Panic)
  | fs (e : Disk.Panic)

abbrev Call := StateT Machine (Except Fault)

def user {α : Type} (m : Kernel α) : Call α := fun r => (m r).mapError .vm

def disk {α : Type} (m : Except Disk.Panic α) : Call α := fun r => (m.mapError .fs).map (·, r)

/-! ## Pipes -/

/-- How a wait ends: in a sleep that goes on, with killed(), or with what is waited for. -/
inductive Wait (α : Type)
  | asleep
  | killed
  | ready (a : α)

/-- The first loop of piperead. `wakes` are what killed() says and the pipe that the process finds
after the sleep, for each sleep. -/
def pipeWait : List (Bool × Pipe) → Pipe → Wait Pipe
  | [], pi => if pi.nread = pi.nwrite ∧ pi.writeopen then .asleep else .ready pi
  | (killed, woken) :: wakes, pi =>
    if pi.nread = pi.nwrite ∧ pi.writeopen then if killed then .killed else pipeWait wakes woken
    else .ready pi

/-- The second loop of piperead, which has still `m` turns to go. -/
def pipeCopy (pagetable : Nat) (addr : UInt64) : Nat → Nat → Pipe → Kernel (Nat × Pipe)
  | 0, i, pi => return (i, pi)
  | m + 1, i, pi =>
    if pi.nread = pi.nwrite then return (i, pi)
    else do
      let ch := pi.data (Pipes.slot pi.nread)
      if ← copyout pagetable (addr + UInt64.ofNat i) (fun _ => ch) 1 then
        pipeCopy pagetable addr m (i + 1) pi.take
      else return (i, pi.take)

/-- The result is none in a sleep that goes on. -/
def piperead (pagetable : Nat) (wakes : List (Bool × Pipe)) (pi : Pipe) (addr : UInt64) (n : Int32) :
    Kernel (Option Int × Pipe) :=
  match pipeWait wakes pi with
  | .asleep => return (none, pi)
  | .killed => return (some (-1), pi)
  | .ready pi => do
    let (i, pi) ← pipeCopy pagetable addr n.toInt.toNat 0 pi
    return (some i, pi)

/-! ## The console -/

/-- How consoleread gives up cons.lock: it sleeps with `n` bytes to go, or it is done. -/
inductive Pause
  | sleep (n : Nat) (dst : UInt64)
  | done (n : Nat)

/-- The loop of consoleread, up to the next sleep. -/
def consoleLoop (pagetable target : Nat) : Nat → Cons → UInt64 → Kernel (Cons × Pause)
  | 0, k, _ => return (k, .done 0)
  | n + 1, k, dst =>
    if k.r = k.w then return (k, .sleep (n + 1) dst)
    else
      let c := k.buf (Console.slot k.r)
      let k := { k with r := k.r + 1 }
      if c = ctrlD then
        return (if n + 1 < target then { k with r := k.r - 1 } else k, .done (n + 1))
      else do
        if ← copyout pagetable dst (fun _ => c) 1 then
          if c = newline then return (k, .done n) else consoleLoop pagetable target n k (dst + 1)
        else return (k, .done (n + 1))

/-- consoleread, whose sleeps are those of `wakes`. -/
def consoleread (pagetable target : Nat) :
    List (Bool × Cons) → Nat → Cons → UInt64 → Kernel (Option Int × Cons)
  | [], n, k, dst => do
    let (k, pause) ← consoleLoop pagetable target n k dst
    match pause with
    | .done n => return (some (target - n), k)
    | .sleep _ _ => return (none, k)
  | (killed, woken) :: wakes, n, k, dst => do
    let (k, pause) ← consoleLoop pagetable target n k dst
    match pause with
    | .done n => return (some (target - n), k)
    | .sleep n dst =>
      if killed then return (some (-1), k) else consoleread pagetable target wakes n woken dst

/-! ## Inodes -/

def readLoop (sb : Superblock) (pagetable n : Nat) :
    Nat → Image → Dinode → Nat → UInt64 → Nat → Call (Option Nat × Image × Dinode)
  | 0, d, x, _, _, tot => return (some tot, d, x)
  | fuel + 1, d, x, off, dst, tot =>
    if tot < n then do
      let (addr, d, x) ← disk (bmap sb d x (off / BSIZE))
      if addr = 0 then return (some tot, d, x)
      else do
        let m := min (n - tot) (BSIZE - off % BSIZE)
        if ← user (copyout pagetable dst (fun k => d addr.toNat (off % BSIZE + k)) (UInt64.ofNat m)) then
          readLoop sb pagetable n fuel d x (off + m) (dst + UInt64.ofNat m) (tot + m)
        else return (none, d, x)
    else return (some tot, d, x)

def readi (sb : Superblock) (pagetable : Nat) (d : Image) (x : Dinode) (dst : UInt64)
    (off n : UInt32) : Call (Int × Image × Dinode) :=
  if x.size < off ∨ off + n < off then return (0, d, x)
  else do
    let n := if x.size < off + n then x.size - off else n
    let (tot, d, x) ← readLoop sb pagetable n.toNat n.toNat d x off.toNat dst 0
    return (tot.elim (-1) fun tot => (tot : Int), d, x)

/-! ## struct file -/

def CONSOLE : Nat := 1

/-- What an open file is of; the sleeps that a read of it makes come with it. -/
inductive Object
  | pipe (pi : Pipe) (wakes : List (Bool × Pipe))
  | device (major : Int) (k : Cons) (wakes : List (Bool × Cons))
  | inode (d : Image) (x : Dinode) (off : UInt32)

structure File where
  readable : Bool
  object : Object

/-- Only the console has a devsw entry. -/
def fileread (sb : Superblock) (pagetable : Nat) (f : File) (addr : UInt64) (n : Int32) :
    Call (Option Int × File) :=
  if f.readable = false then return (some (-1), f)
  else match f.object with
    | .pipe pi wakes => do
      let (r, pi) ← user (piperead pagetable wakes pi addr n)
      return (r, { f with object := .pipe pi wakes })
    | .device major k wakes =>
      if major < 0 ∨ (NDEV : Int) ≤ major ∨ major ≠ CONSOLE then return (some (-1), f)
      else do
        let n := n.toInt.toNat
        let (r, k) ← user (consoleread pagetable n wakes n k addr)
        return (r, { f with object := .device major k wakes })
    | .inode d x off => do
      let (r, d, x) ← readi sb pagetable d x addr off n.toUInt32
      let off := if 0 < r then off + UInt32.ofNat r.toNat else off
      return (some r, { f with object := .inode d x off })

variable {r r' r'' : Machine} {root : Page} {a b j m n : Nat}

/-- User memory has changed in `m` bytes from `a` on at most. -/
structure Delivers (r : Machine) (root : Page) (a m : Nat) (r' : Machine) : Prop where
  table : UserTable r' root
  pte : pteOf r' root = pteOf r root
  bytes : ∀ b, Readable r root b → ¬(a ≤ b ∧ b < a + m) → userByte r' root b = userByte r root b

namespace Delivers

theorem refl (hu : UserTable r root) : Delivers r root a m r := ⟨hu, rfl, fun _ _ _ => rfl⟩

theorem mono (h : Delivers r root a m r') (hm : m ≤ n) : Delivers r root a n r' :=
  ⟨h.table, h.pte, fun b hb hout => h.bytes b hb (by omega)⟩

theorem readable_iff (h : Delivers r root a m r') : Readable r' root b ↔ Readable r root b := by
  rw [Readable, Readable, h.pte]

theorem writable_iff (h : Delivers r root a m r') : Writable r' root b ↔ Writable r root b := by
  rw [Writable, Writable, h.pte]

theorem trans (h : Delivers r root a m r') (h' : Delivers r' root b n r'') (hb : n ≠ 0 → b = a + m) :
    Delivers r root a (m + n) r'' := by
  refine ⟨h'.table, h'.pte.trans h.pte, fun x hx hout => ?_⟩
  rw [h'.bytes x (h.readable_iff.mpr hx) fun hin => ?_, h.bytes x hx (by omega)]
  omega

theorem of_copiedOut {src : Bytes} (hu : UserTable r root) (h : CopiedOut r root a src m r') :
    Delivers r root a m r' := by
  refine ⟨h.userTable hu, h.pteOf, fun b hb hout => ?_⟩
  rw [userByte, h.phys]
  refine h.rest _ fun k hk he => hout ?_
  have := hu.phys_inj hb (h.writable k hk).readable he
  omega

end Delivers

/-- Of the `n` bytes `src` for user memory from `a` on, the first `j` have been copied, one by one; the
next one, if any, could not be. -/
structure Handed (r : Machine) (root : Page) (a : Nat) (src : Bytes) (n j : Nat) (r' : Machine) :
    Prop where
  le : j ≤ n
  delivers : Delivers r root a j r'
  bytes : ∀ k < j, userByte r' root (a + k) = src k
  writable : ∀ k < j, Writable r root (a + k)
  stuck : j < n → ¬ Writable r root (a + j)

namespace Handed

theorem none {src : Bytes} (hu : UserTable r root) : Handed r root a src 0 0 r :=
  ⟨le_rfl, .refl hu, nofun, nofun, nofun⟩

theorem step {src : Bytes} (hw : Writable r root a) (hd : Delivers r root a 1 r')
    (hb : userByte r' root a = src 0) (h : Handed r' root (a + 1) (fun k => src (k + 1)) n j r'') :
    Handed r root a src (n + 1) (j + 1) r'' := by
  have hk : ∀ k, a + (k + 1) = a + 1 + k := fun k => by omega
  refine ⟨Nat.succ_le_succ h.le, Nat.add_comm 1 j ▸ hd.trans h.delivers fun _ => rfl, ?_, ?_, ?_⟩
  · intro k hlt
    cases k with
    | zero => exact (h.delivers.bytes a (hd.readable_iff.mpr hw.readable) (by omega)).trans hb
    | succ k =>
      rw [hk]
      exact h.bytes k (by omega)
  · intro k hlt
    cases k with
    | zero => exact hw
    | succ k =>
      rw [hk, ← hd.writable_iff]
      exact h.writable k (by omega)
  · intro hlt
    rw [hk, ← hd.writable_iff]
    exact h.stuck (by omega)

end Handed

/-- The address after one that can be written. -/
theorem Writable.succ {dst : UInt64} (h : Writable r root dst.toNat) :
    (dst + 1).toNat = dst.toNat + 1 := by
  have hb := h.readable.below
  have hmax : MAXVA = 2 ^ 38 := rfl
  show (dst.toNat + 1) % 2 ^ 64 = _
  omega

theorem copyout_byte (c : UInt8) (dst : UInt64) (hu : UserTable r root) :
    Returns (copyout (root * PGSIZE) dst (fun _ => c) 1) r fun ok r' =>
      (ok = true ∧ Writable r root dst.toNat ∧ Delivers r root dst.toNat 1 r' ∧
          userByte r' root dst.toNat = c) ∨
        ok = false ∧ ∀ src n, Handed r root dst.toNat src (n + 1) 0 r' := by
  refine (copyout_returns _ dst 1 hu).mono ?_
  rintro ok r' ⟨m, hm, hcopy, htrue, hfalse⟩
  cases ok with
  | true =>
    obtain rfl : m = 1 := htrue rfl
    exact .inl ⟨rfl, hcopy.writable 0 Nat.one_pos, .of_copiedOut hu hcopy, hcopy.bytes 0 Nat.one_pos⟩
  | false =>
    obtain ⟨hlt, hnot⟩ := hfalse rfl
    obtain rfl : m = 0 := Nat.lt_one_iff.mp hlt
    exact .inr ⟨rfl, fun _ n => ⟨Nat.zero_le _, .of_copiedOut hu hcopy, nofun, nofun, fun _ => hnot⟩⟩

/-- The bytes of a pipe, from the next one on. -/
def pipeBytes (pi : Pipe) : Bytes := fun k => pi.data (Pipes.slot (pi.nread + BitVec.ofNat 32 k))

theorem pipeBytes_take (pi : Pipe) : pipeBytes pi.take = fun k => pipeBytes pi (k + 1) := by
  funext k
  show pi.data (Pipes.slot (pi.nread + 1 + BitVec.ofNat 32 k)) = _
  rw [pipeBytes, Nat.add_comm k 1, BitVec.ofNat_add, BitVec.add_assoc]
  rfl

/-- The bytes that piperead goes through. -/
def pipeReach (m : Nat) (pi : Pipe) : Nat := min m (pi.nwrite - pi.nread).toNat

/-- Taking a byte leaves one less. -/
theorem pipeReach_succ {pi : Pipe} (h : pi.nread ≠ pi.nwrite) :
    pipeReach (m + 1) pi = pipeReach m pi.take + 1 := by
  have hused : (pi.nwrite - pi.nread).toNat = (pi.nwrite - (pi.nread + 1)).toNat + 1 := by
    bv_omega
  show min _ _ = min _ (pi.nwrite - (pi.nread + 1)).toNat + 1
  rw [hused, Nat.add_min_add_right]

theorem pipeCopy_returns (addr : UInt64) (m i : Nat) (pi : Pipe) (hu : UserTable r root) :
    Returns (pipeCopy (root * PGSIZE) addr m i pi) r fun s r' =>
      ∃ j, s.1 = i + j ∧
        Handed r root (addr + UInt64.ofNat i).toNat (pipeBytes pi) (pipeReach m pi) j r' ∧
        s.2.nread = pi.nread + BitVec.ofNat 32 (j + if j < pipeReach m pi then 1 else 0) := by
  induction m generalizing r i pi with
  | zero =>
    have hz : pipeReach 0 pi = 0 := Nat.zero_min _
    rw [hz]
    exact Returns.pure ⟨0, rfl, .none hu, by simp⟩
  | succ m ih =>
    rw [pipeCopy]
    split
    · rename_i he
      have hz : pipeReach (m + 1) pi = 0 := by simp [pipeReach, he]
      rw [hz]
      exact Returns.pure ⟨0, rfl, .none hu, by simp⟩
    rename_i hne
    rw [pipeReach_succ hne]
    refine (copyout_byte _ _ hu).bind ?_
    rintro ok r' (⟨rfl, hw, hd, hb⟩ | ⟨rfl, hstuck⟩)
    · refine (ih (i + 1) pi.take hd.table).mono ?_
      rintro s r'' ⟨j, hs, hj, hr⟩
      rw [UInt64.ofNat_add, ← UInt64.add_assoc, pipeBytes_take] at hj
      refine ⟨j + 1, by omega, .step hw hd (by rw [hb]; simp [pipeBytes]) (hw.succ ▸ hj), ?_⟩
      have hone : pi.take.nread = pi.nread + BitVec.ofNat 32 1 := rfl
      simp only [hr, hone, BitVec.add_assoc, ← BitVec.ofNat_add, Nat.add_lt_add_iff_right]
      rw [Nat.add_left_comm, Nat.add_assoc]
    · exact Returns.pure ⟨0, rfl, hstuck _ _, rfl⟩

/-- The bytes that consoleread copies, if it can: up to the end of a line or of the file, or up to
its next sleep. -/
def consoleReach : Nat → Cons → Nat
  | 0, _ => 0
  | n + 1, k =>
    if k.r = k.w ∨ k.buf (Console.slot k.r) = ctrlD then 0
    else if k.buf (Console.slot k.r) = newline then 1
    else consoleReach n { k with r := k.r + 1 } + 1

theorem index_succ (i : UInt32) (m : Nat) : i + 1 + UInt32.ofNat m = i + UInt32.ofNat (m + 1) := by
  rw [UInt32.ofNat_add, UInt32.add_assoc, UInt32.add_comm 1]
  rfl

/-- The bytes of the console, from the next one on. -/
def consoleBytes (k : Cons) : Bytes := fun j => k.buf (Console.slot (k.r + UInt32.ofNat j))

theorem consoleBytes_succ (k : Cons) :
    consoleBytes { k with r := k.r + 1 } = fun j => consoleBytes k (j + 1) := by
  funext j
  rw [consoleBytes, index_succ]
  rfl

def Pause.left : Pause → Nat
  | sleep n _ => n
  | done n => n

theorem consoleLoop_returns (target n : Nat) (k : Cons) (dst : UInt64) (hu : UserTable r root) :
    Returns (consoleLoop (root * PGSIZE) target n k dst) r fun s r' =>
      ∃ j l, Handed r root dst.toNat (consoleBytes k) (consoleReach n k) j r' ∧ s.2.left + j = n ∧
        (∀ m d, s.2 = .sleep m d → d.toNat = dst.toNat + j) ∧
        s.1 = { k with r := k.r + UInt32.ofNat (j + l) } ∧
        (l = 1 ∧ (j < consoleReach n k ∨ consoleBytes k j = ctrlD) ∨
          l = 0 ∧ j = consoleReach n k) := by
  induction n generalizing r k dst with
  | zero => exact Returns.pure ⟨0, 0, .none hu, rfl, nofun, by simp, .inr ⟨rfl, rfl⟩⟩
  | succ n ih =>
    rw [consoleLoop]
    split
    · rename_i he
      have hz : consoleReach (n + 1) k = 0 := if_pos (.inl he)
      rw [hz]
      exact Returns.pure ⟨0, 0, .none hu, rfl, fun _ _ h => by cases h; rfl, by simp, .inr ⟨rfl, rfl⟩⟩
    rename_i hne
    dsimp only
    split
    · rename_i hc
      have hz : consoleReach (n + 1) k = 0 := if_pos (.inr hc)
      rw [hz]
      have hat : consoleBytes k 0 = ctrlD := by simpa [consoleBytes] using hc
      split
      · exact Returns.pure ⟨0, 0, .none hu, rfl, nofun, by simp, .inr ⟨rfl, rfl⟩⟩
      · exact Returns.pure ⟨0, 1, .none hu, rfl, nofun, rfl, .inl ⟨rfl, .inr hat⟩⟩
    rename_i hc
    rw [consoleReach, if_neg (not_or.mpr ⟨hne, hc⟩)]
    refine (copyout_byte _ dst hu).bind ?_
    rintro ok r' (⟨rfl, hw, hd, hb⟩ | ⟨rfl, hstuck⟩)
    · have hb : userByte r' root dst.toNat = consoleBytes k 0 := by rw [hb]; simp [consoleBytes]
      rw [if_pos rfl]
      split
      · exact Returns.pure ⟨1, 0, .step hw hd hb (.none hd.table), rfl, nofun, rfl, .inr ⟨rfl, rfl⟩⟩
      refine (ih { k with r := k.r + 1 } (dst + 1) hd.table).mono ?_
      rintro s r'' ⟨j, l, hj, hleft, hdst, hs, hl⟩
      rw [consoleBytes_succ] at hj hl
      rw [hw.succ] at hj hdst
      rw [index_succ] at hs
      refine ⟨j + 1, l, .step hw hd hb hj, by omega, fun m d h => by rw [hdst m d h]; omega, ?_, ?_⟩
      · rw [hs, Nat.add_right_comm]
      · rw [Nat.add_lt_add_iff_right, Nat.add_right_cancel_iff]
        exact hl
    · have hreach : 0 < if k.buf (Console.slot k.r) = newline then 1 else
        consoleReach n { k with r := k.r + 1 } + 1 := by split <;> omega
      refine Returns.pure ⟨0, 1, ?_, rfl, nofun, rfl, .inl ⟨rfl, .inl hreach⟩⟩
      split <;> exact hstuck _ _

theorem consoleread_returns (target : Nat) (wakes : List (Bool × Cons)) (n : Nat) (k : Cons)
    (dst : UInt64) (hu : UserTable r root) :
    Returns (consoleread (root * PGSIZE) target wakes n k dst) r fun s r' =>
      Delivers r root dst.toNat n r' ∧ ∀ v, s.1 = some v → v ≤ target := by
  induction wakes generalizing r n k dst with
  | nil =>
    refine (consoleLoop_returns target n k dst hu).bind ?_
    rintro ⟨k', p⟩ r' ⟨j, l, hj, hleft, -⟩
    have hd := hj.delivers.mono (show j ≤ n by omega)
    cases p with
    | done m => exact Returns.pure ⟨hd, fun v hv => by cases hv; omega⟩
    | sleep m d => exact Returns.pure ⟨hd, nofun⟩
  | cons w wakes ih =>
    refine (consoleLoop_returns target n k dst hu).bind ?_
    rintro ⟨k', p⟩ r' ⟨j, l, hj, hleft, hdst, -⟩
    have hd := hj.delivers.mono (show j ≤ n by omega)
    cases p with
    | done m => exact Returns.pure ⟨hd, fun v hv => by cases hv; omega⟩
    | sleep m d =>
      dsimp only
      split
      · exact Returns.pure ⟨hd, fun v hv => by cases hv; omega⟩
      refine (ih m w.2 d hj.delivers.table).mono ?_
      rintro s r'' ⟨hd', hv⟩
      rw [hdst m d rfl] at hd'
      have hmn : j + m = n := by rw [← hleft]; exact Nat.add_comm _ _
      exact ⟨hmn ▸ hj.delivers.trans hd' fun _ => rfl, hv⟩

/-! ## Inodes -/

theorem Returns.user {α : Type} {m : Kernel α} {Q : α → Machine → Prop} (h : Returns m r Q) :
    Returns (Vm.user m) r Q := by
  obtain ⟨s, r', hm, hq⟩ := h
  exact ⟨s, r', by rw [Vm.user, hm]; rfl, hq⟩

section Inode

variable {sb : Superblock} {d : Image} {x : Dinode} {off : Nat} {dst : UInt64}

theorem bmap_ok {bn : Nat} (h : bn < MAXFILE) : ∃ s, bmap sb d x bn = .ok s := by
  rw [bmap]
  split
  · split
    · dsimp only
      split <;> exact ⟨_, rfl⟩
    · exact ⟨_, rfl⟩
  · rw [if_pos (by rw [MAXFILE] at h; omega)]
    dsimp only
    split
    · exact ⟨_, rfl⟩
    · split
      · split <;> exact ⟨_, rfl⟩
      · exact ⟨_, rfl⟩

theorem CopiedOut.next {src : Bytes} (h : CopiedOut r root dst.toNat src m r') :
    (dst + UInt64.ofNat m).toNat = dst.toNat + m := by
  have hmax : MAXVA = 2 ^ 38 := rfl
  have hlt := dst.toNat_lt
  have hm : m = 0 ∨ dst.toNat + m ≤ MAXVA := by
    by_cases hz : m = 0
    · exact .inl hz
    · have := (h.writable (m - 1) (by omega)).readable.below
      omega
  rw [UInt64.toNat_add, UInt64.toNat_ofNat']
  omega

theorem readLoop_returns (fuel tot : Nat) (hu : UserTable r root)
    (hoff : off + (n - tot) ≤ MAXFILE * BSIZE) (htot : tot ≤ n) :
    Returns (readLoop sb (root * PGSIZE) n fuel d x off dst tot) r fun s r' =>
      Delivers r root dst.toNat (n - tot) r' ∧ ∀ v, s.1 = some v → v ≤ n := by
  induction fuel generalizing r d x off dst tot with
  | zero => exact Returns.pure ⟨.refl hu, fun v hv => by cases hv; exact htot⟩
  | succ fuel ih =>
    rw [readLoop]
    split
    · rename_i hlt
      have hbn : off / BSIZE < MAXFILE := Nat.div_lt_of_lt_mul (by rw [Nat.mul_comm]; omega)
      obtain ⟨⟨addr, d', x'⟩, hs⟩ := @bmap_ok sb d x _ hbn
      refine Returns.bind_ok (by rw [hs]; rfl) ?_
      dsimp only
      split
      · exact Returns.pure ⟨.refl hu, fun v hv => by cases hv; exact htot⟩
      have hbsize : BSIZE = 1024 := rfl
      have hm : (UInt64.ofNat (min (n - tot) (BSIZE - off % BSIZE))).toNat =
          min (n - tot) (BSIZE - off % BSIZE) := by
        rw [UInt64.toNat_ofNat']
        omega
      refine (Returns.user (copyout_returns _ dst _ hu)).bind ?_
      rintro ok r' ⟨m, hle, hcopy, htrue, -⟩
      rw [hm] at hle htrue
      cases ok with
      | false => exact Returns.pure ⟨(Delivers.of_copiedOut hu hcopy).mono (by omega), nofun⟩
      | true =>
        have hm := htrue rfl
        rw [← hm]
        refine (ih (tot + m) (hcopy.userTable hu) (by omega) (by omega)).mono ?_
        rintro s r'' ⟨hd, hv⟩
        have hsum : m + (n - (tot + m)) = n - tot := by omega
        rw [hcopy.next] at hd
        exact ⟨hsum ▸ (Delivers.of_copiedOut hu hcopy).trans hd fun _ => rfl, hv⟩
    · exact Returns.pure ⟨.refl hu, fun v hv => by cases hv; exact htot⟩

/-- The number of bytes that readi tries to read. -/
def readReach (x : Dinode) (off n : UInt32) : Nat :=
  if x.size < off ∨ off + n < off then 0 else min n.toNat (x.size.toNat - off.toNat)

theorem readi_eq (dst : UInt64) (off n : UInt32) (h : ¬(x.size < off ∨ off + n < off)) :
    readi sb (root * PGSIZE) d x dst off n = do
      let (tot, d, x) ← readLoop sb (root * PGSIZE) (readReach x off n) (readReach x off n) d x off.toNat
        dst 0
      return (tot.elim (-1) fun tot => (tot : Int), d, x) := by
  have hreach : (if x.size < off + n then x.size - off else n).toNat = readReach x off n := by
    have hr : readReach x off n = min n.toNat (x.size.toNat - off.toNat) := if_neg h
    simp only [not_or, UInt32.not_lt, UInt32.le_iff_toNat_le, UInt32.toNat_add] at h
    have := n.toNat_lt
    split
    · rename_i hlt
      rw [UInt32.lt_iff_toNat_lt, UInt32.toNat_add] at hlt
      rw [UInt32.toNat_sub_of_le _ _ (UInt32.le_iff_toNat_le.mpr h.1)]
      omega
    · rename_i hlt
      rw [UInt32.not_lt, UInt32.le_iff_toNat_le, UInt32.toNat_add] at hlt
      omega
  rw [readi, if_neg h]
  dsimp only
  rw [hreach]

theorem readi_returns (dst : UInt64) (off n : UInt32) (hu : UserTable r root)
    (hsize : x.size.toNat ≤ MAXFILE * BSIZE) :
    Returns (readi sb (root * PGSIZE) d x dst off n) r fun s r' =>
      Delivers r root dst.toNat (readReach x off n) r' ∧ s.1 ≤ readReach x off n := by
  by_cases h : x.size < off ∨ off + n < off
  · rw [readi, if_pos h]
    exact Returns.pure ⟨.refl hu, Int.natCast_nonneg _⟩
  rw [readi_eq dst off n h]
  have hle : off.toNat ≤ x.size.toNat := UInt32.le_iff_toNat_le.mp (UInt32.not_lt.mp (not_or.mp h).1)
  have hreach : readReach x off n ≤ x.size.toNat - off.toNat := by
    rw [readReach, if_neg h]
    exact Nat.min_le_right _ _
  refine (readLoop_returns _ 0 hu (by omega) (Nat.zero_le _)).bind ?_
  rintro ⟨tot, d', x'⟩ r' ⟨hd, hv⟩
  refine Returns.pure ⟨hd, ?_⟩
  cases tot with
  | none => exact (by decide : (-1 : Int) ≤ 0).trans (Int.natCast_nonneg _)
  | some v => exact Int.ofNat_le.mpr (hv v rfl)

/-- A block that cannot be had ends the loop in its first turn. -/
theorem readi_stops (dst : UInt64) (off n : UInt32) (hu : UserTable r root) {d' : Image} {x' : Dinode}
    (hb : bmap sb d x (off.toNat / BSIZE) = .ok (0, d', x')) :
    Returns (readi sb (root * PGSIZE) d x dst off n) r fun s r' =>
      Delivers r root dst.toNat 0 r' ∧ s.1 ≤ 0 := by
  by_cases h : x.size < off ∨ off + n < off
  · rw [readi, if_pos h]
    exact Returns.pure ⟨.refl hu, le_rfl⟩
  rw [readi_eq dst off n h]
  cases readReach x off n with
  | zero => exact Returns.pure ⟨.refl hu, le_rfl⟩
  | succ k =>
    rw [readLoop, hb]
    exact Returns.pure ⟨.refl hu, le_rfl⟩

theorem readi_first {dst : UInt64} {off n : UInt32} (hu : UserTable r root)
    (hw : Writable r root dst.toNat) (hsize : x.size.toNat ≤ MAXFILE * BSIZE)
    (hreach : readReach x off n ≠ 0) {addr : UInt32} {d' : Image} {x' : Dinode}
    (hb : bmap sb d x (off.toNat / BSIZE) = .ok (addr, d', x')) (ha : addr ≠ 0) :
    Returns (readi sb (root * PGSIZE) d x dst off n) r fun _ r' =>
      userByte r' root dst.toNat = d' addr.toNat (off.toNat % BSIZE) := by
  have h : ¬(x.size < off ∨ off + n < off) := fun h => hreach (if_pos h)
  have hle : readReach x off n ≤ x.size.toNat - off.toNat := by
    rw [readReach, if_neg h]
    exact Nat.min_le_right _ _
  rw [readi_eq dst off n h]
  obtain ⟨k, hk⟩ := Nat.exists_eq_succ_of_ne_zero hreach
  rw [hk] at hle ⊢
  rw [readLoop, hb]
  refine Returns.bind ?_ fun s r' h => Returns.pure h
  refine Returns.bind_ok rfl ?_
  dsimp only
  rw [if_neg ha]
  have hmod := Nat.mod_lt off.toNat (show 0 < BSIZE by decide)
  have hbsize : BSIZE = 1024 := rfl
  refine (Returns.user (copyout_returns _ dst _ hu)).bind ?_
  rintro ok r' ⟨m, hm, hcopy, htrue, hfalse⟩
  rw [UInt64.toNat_ofNat'] at hm htrue hfalse
  have hpos : 0 < m := by
    by_contra hz
    obtain rfl : m = 0 := by omega
    cases ok with
    | true =>
      have := htrue rfl
      omega
    | false => exact (hfalse rfl).2 hw
  have hbyte := hcopy.bytes 0 hpos
  cases ok with
  | false => exact Returns.pure hbyte
  | true =>
    have hm : min (k.succ - 0) (BSIZE - off.toNat % BSIZE) = m := by
      have := htrue rfl
      omega
    rw [hm]
    refine (readLoop_returns k _ (hcopy.userTable hu) (by omega) (by omega)).mono ?_
    rintro s r'' ⟨hd, -⟩
    rw [hcopy.next] at hd
    exact (hd.bytes _ (hcopy.writable_iff.mpr hw).readable (by omega)).trans hbyte

end Inode

/-! ## All files -/

/-- A read returns, and it gives no more than it was asked for. -/
def Bounds (sb : Superblock) (root : Page) (f : File) (addr : UInt64) (n : Int32) (r : Machine) : Prop :=
  Returns (fileread sb (root * PGSIZE) f addr n) r fun s r' =>
    (∀ v, s.1 = some v → v ≤ max n.toInt 0) ∧ ∀ b, Readable r root b →
      ¬(addr.toNat ≤ b ∧ b < addr.toNat + (max n.toInt 0).toNat) → userByte r' root b = userByte r root b

/-- No negative count, or readi turns it away, or there is nothing to read. -/
def Asked (sb : Superblock) (f : File) (n : Int32) : Prop :=
  f.readable = false ∨ 0 ≤ n.toInt ∨ ∀ d x off, f.object = .inode d x off →
    readReach x off n.toUInt32 = 0 ∨ ∃ d' x', bmap sb d x (off.toNat / BSIZE) = .ok (0, d', x')

theorem piperead_returns (wakes : List (Bool × Pipe)) (pi : Pipe) (addr : UInt64) (n : Int32)
    (hu : UserTable r root) :
    Returns (piperead (root * PGSIZE) wakes pi addr n) r fun s r' =>
      Delivers r root addr.toNat n.toInt.toNat r' ∧ ∀ v, s.1 = some v → v ≤ n.toInt.toNat := by
  rw [piperead]
  split
  · exact Returns.pure ⟨.refl hu, nofun⟩
  · exact Returns.pure ⟨.refl hu, fun v hv => by cases hv; omega⟩
  · rename_i pi _
    refine (pipeCopy_returns addr n.toInt.toNat 0 pi hu).bind ?_
    rintro ⟨i, pi'⟩ r' ⟨j, hi, hj, -⟩
    have hle : j ≤ n.toInt.toNat := hj.le.trans (Nat.min_le_left _ _)
    have hd := hj.delivers.mono hle
    rw [show UInt64.ofNat 0 = 0 from rfl, UInt64.add_zero] at hd
    refine Returns.pure ⟨hd, fun v hv => ?_⟩
    cases hv
    omega

theorem bounds_of {s : Option Int × File} {addr : UInt64} {n : Int32}
    (hd : Delivers r root addr.toNat m r') (hm : m ≤ n.toInt.toNat) (hv : ∀ v, s.1 = some v → v ≤ m) :
    (∀ v, s.1 = some v → v ≤ max n.toInt 0) ∧ ∀ b, Readable r root b →
      ¬(addr.toNat ≤ b ∧ b < addr.toNat + (max n.toInt 0).toNat) →
        userByte r' root b = userByte r root b := by
  refine ⟨fun v h => ?_, fun b hb hout => hd.bytes b hb (by omega)⟩
  have := hv v h
  omega

theorem bounds_inode {sb : Superblock} {f : File} {n : Int32} {d : Image} {x : Dinode} {off : UInt32}
    (hf : f.readable = true) (ho : f.object = .inode d x off) (addr : UInt64) (hu : UserTable r root)
    (hsize : x.size.toNat ≤ MAXFILE * BSIZE) (ha : 0 ≤ n.toInt ∨ readReach x off n.toUInt32 = 0 ∨
      ∃ d' x', bmap sb d x (off.toNat / BSIZE) = .ok (0, d', x')) :
    Bounds sb root f addr n r := by
  rw [Bounds, fileread, if_neg (by simp [hf]), ho]
  have hread : ∃ m ≤ n.toInt.toNat, Returns (readi sb (root * PGSIZE) d x addr off n.toUInt32) r
      fun s r' => Delivers r root addr.toNat m r' ∧ s.1 ≤ m := by
    rcases ha with hz | hz | ⟨d', x', hb⟩
    · have hn : n.toUInt32.toNat = n.toInt.toNat :=
        Int32.toNat_toUInt32_of_le (Int32.le_iff_toInt_le.mpr hz)
      refine ⟨_, ?_, readi_returns addr off n.toUInt32 hu hsize⟩
      rw [readReach]
      split <;> omega
    · exact ⟨_, by omega, readi_returns addr off n.toUInt32 hu hsize⟩
    · exact ⟨0, Nat.zero_le _, readi_stops addr off n.toUInt32 hu hb⟩
  obtain ⟨m, hm, hread⟩ := hread
  refine hread.bind ?_
  rintro ⟨v, d', x'⟩ r' ⟨hd, hv⟩
  exact Returns.pure (bounds_of hd hm fun w hw => by cases hw; exact hv)

/-- fileread gives no more than it is asked for, to whatever user address, unless a negative count
reaches readi before the end of a file. -/
theorem fileread_bounded_iff (sb : Superblock) (f : File) (n : Int32)
    (hsize : ∀ d x off, f.object = .inode d x off → x.size.toNat ≤ MAXFILE * BSIZE) :
    (∀ r root addr, UserTable r root → Bounds sb root f addr n r) ↔ Asked sb f n := by
  constructor
  · intro h
    by_contra hc
    simp only [Asked, not_or, not_forall, not_exists] at hc
    obtain ⟨hf, hn, d, x, off, ho, hreach, hnone⟩ := hc
    have hsize := hsize d x off ho
    have hbn : off.toNat / BSIZE < MAXFILE := by
      refine Nat.div_lt_of_lt_mul ?_
      rw [readReach] at hreach
      split at hreach
      · exact absurd rfl hreach
      · rw [Nat.mul_comm]
        omega
    obtain ⟨⟨a, d', x'⟩, hb⟩ := @bmap_ok sb d x _ hbn
    have ha : a ≠ 0 := by
      rintro rfl
      exact hnone d' x' hb
    -- a page whose first byte is not the one that is read
    obtain ⟨r₀, hu₀, hw₀, -⟩ := exists_userTable
    obtain ⟨ok, r, -, hu, hiff, -, hcopy⟩ :=
      copyout_iff (fun _ => d' a.toNat (off.toNat % BSIZE) + 1) 0 1 hu₀
    have hcopy := hcopy (hiff.mpr fun k hk => by rw [Nat.lt_one_iff.mp hk]; exact hw₀)
    have hw : Writable r 524288 (0 : UInt64).toNat := hcopy.writable_iff.mpr hw₀
    have hold := hcopy.bytes 0 Nat.one_pos
    obtain ⟨⟨v, f'⟩, r', hs, -, hframe⟩ := h r 524288 0 hu
    have hnew : Returns (fileread sb (524288 * PGSIZE) f 0 n) r fun _ r' =>
        userByte r' 524288 0 = d' a.toNat (off.toNat % BSIZE) := by
      rw [fileread, if_neg (by simp [hf]), ho]
      exact (readi_first hu hw hsize hreach hb ha).bind fun s r' h => Returns.pure h
    obtain ⟨s, r'', hs', hnew⟩ := hnew
    rw [hs] at hs'
    cases hs'
    have hsame := hframe 0 hw.readable (by omega)
    rw [hnew] at hsame
    have hold : userByte r 524288 0 = d' a.toNat (off.toNat % BSIZE) + 1 := hold
    rw [hold] at hsame
    exact absurd hsame (by simp)
  · intro ha r root addr hu
    by_cases hf : f.readable = false
    · rw [Bounds, fileread, if_pos hf]
      exact Returns.pure (bounds_of (.refl hu) (Nat.zero_le _) fun v hv => by cases hv; simp)
    cases ho : f.object with
    | pipe pi wakes =>
      rw [Bounds, fileread, if_neg hf, ho]
      refine (Returns.user (piperead_returns wakes pi addr n hu)).bind ?_
      exact fun s r' ⟨hd, hv⟩ => Returns.pure (bounds_of hd le_rfl hv)
    | device major k wakes =>
      rw [Bounds, fileread, if_neg hf, ho]
      dsimp only
      split
      · exact Returns.pure (bounds_of (.refl hu) (Nat.zero_le _) fun v hv => by cases hv; simp)
      · refine (Returns.user (consoleread_returns _ wakes _ k addr hu)).bind ?_
        exact fun s r' ⟨hd, hv⟩ => Returns.pure (bounds_of hd le_rfl hv)
    | inode d x off =>
      exact bounds_inode (by simpa using hf) ho addr hu (hsize d x off ho)
        ((ha.resolve_left hf).imp_right fun h => h d x off ho)

def oneByteFile : File := ⟨true, .inode (fun _ _ => 7) ⟨2, 0, 0, 1, 1, fun _ => 5⟩ 0⟩

theorem fileread_bounded_one :
    ∃ r, UserTable r 524288 ∧ Bounds ⟨10, 6, 16, 2, 3⟩ 524288 oneByteFile 0 1 r := by
  obtain ⟨r, hu, -⟩ := exists_userTable
  refine ⟨r, hu, (fileread_bounded_iff _ oneByteFile 1 ?_).mpr (.inr (.inl ?_)) r _ 0 hu⟩
  · intro d x off h
    cases h
    decide
  · decide

/-- A read of -1 bytes gives the whole file. -/
theorem fileread_negative :
    ∃ r, UserTable r 524288 ∧
      Returns (fileread ⟨10, 6, 16, 2, 3⟩ (524288 * PGSIZE) oneByteFile 0 (-1)) r fun s r' =>
        s.1 = some 1 ∧ userByte r' 524288 0 = 7 := by
  obtain ⟨r, hu, hw, -⟩ := exists_userTable
  refine ⟨r, hu, ?_⟩
  refine Returns.bind (P := fun s r' => s.1 = 1 ∧ userByte r' 524288 0 = 7) ?_
    fun s r' h => Returns.pure ⟨by rw [h.1], h.2⟩
  rw [readi_eq 0 0 _ (by decide)]
  refine Returns.bind (P := fun s r' => s.1 = some 1 ∧ userByte r' 524288 0 = 7) ?_
    fun s r' h => Returns.pure ⟨by rw [h.1]; rfl, h.2⟩
  have hreach : readReach ⟨2, 0, 0, 1, 1, fun _ => 5⟩ 0 (Int32.toUInt32 (-1)) = 1 := by decide
  refine Returns.bind_ok rfl ?_
  refine (Returns.user (copyout_iff _ 0 _ hu)).bind ?_
  rintro ok r' ⟨-, hiff, -, hcopy⟩
  have hok := hiff.mpr fun k hk => by rw [Nat.lt_one_iff.mp hk]; exact hw
  rw [hok]
  exact Returns.pure ⟨rfl, (hcopy hok).bytes 0 Nat.one_pos⟩

/-! ## Bytes that are lost -/

end Xv6.Vm
