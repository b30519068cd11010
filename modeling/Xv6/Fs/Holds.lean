import Xv6.Fs.Calls

namespace Xv6.Fs

open Xv6.Framework

/-- What a process holds in the middle of a call: references to inodes, in the state that its code
has brought them to, and what it has taken apart from that.

`ref` is a plain reference, `loaded` once ilock has read the inode. `fresh` is that of an inode
just allocated. `locking` has the sleep-lock, and `locked` has read the inode as well: `mem` are
its fields in memory and `disk` those on disk. With `freeing` it is iput that has the lock.
`freed` is the same after the inode is free on disk, and `dropping` after the lock is released.
`claimed` is a number that ialloc has marked, `adrift` stands for a working directory given up,
and `reserved` for a descriptor whose file structure has no inode yet. -/
inductive Hold
  | ref (ip : Ip) (inum : Nat) (loaded : Bool)
  | fresh (ip : Ip) (inum : Nat)
  | locking (ip : Ip) (inum : Nat) (loaded : Bool)
  | locked (ip : Ip) (inum : Nat) (freeing : Bool) (mem disk : Dinode)
  | freed (ip : Ip) (inum : Nat)
  | dropping (ip : Ip) (inum : Nat)
  | claimed (inum : Nat)
  | adrift
  | reserved (fd : Fin NOFILE)
  deriving DecidableEq

namespace Hold

def on : Hold → Option Ip
  | .ref ip _ _ => some ip
  | .fresh ip _ => some ip
  | .locking ip _ _ => some ip
  | .locked ip _ _ _ _ => some ip
  | .freed ip _ => some ip
  | .dropping ip _ => some ip
  | _ => none

def locks : Hold → Bool
  | .locking _ _ _ => true
  | .locked _ _ _ _ _ => true
  | .freed _ _ => true
  | _ => false

def puts : Hold → Bool
  | .locked _ _ freeing _ _ => freeing
  | .freed _ _ => true
  | .dropping _ _ => true
  | _ => false

end Hold

/-- The panics of a process that uses an inode without a reference, or without the lock, or that
waits for a lock with itable.lock held. -/
def Panic.misuse : Panic → Bool
  | .ilock => true
  | .iunlock => true
  | .sched => true
  | _ => false

/-- The entries of a directory are in its blocks, so that readi finds no hole. -/
def Dinode.Whole (d : Dinode) : Prop := d.entries.length * DIRENT ≤ d.addrs.length * BSIZE

/-- The rules for the use of inodes and of the rest. Under a lock the fields in memory and on disk
are known, no block is forgotten that has not been freed, no hole is made, and what iunlock leaves is
on disk. -/
def allows : (o : Op) → Multiset Hold → (Reply o → Multiset Hold → Prop) → Prop
  | .iget inum false, hs, K => ∀ ip, K ip (.ref ip inum false ::ₘ hs)
  | .iget inum true, hs, K => ∃ r, hs = .claimed inum ::ₘ r ∧ ∀ ip, K ip (.fresh ip inum ::ₘ r)
  | .idupCwd, hs, K => ∀ ip inum, K ip (.ref ip inum false ::ₘ hs)
  | .acquiresleep ip, hs, K => ∃ inum loaded r,
      (hs = .ref ip inum loaded ::ₘ r ∨ hs = .fresh ip inum ::ₘ r ∧ loaded = false) ∧
      K () (.locking ip inum loaded ::ₘ r)
  | .load ip, hs, K => ∃ inum loaded r, hs = .locking ip inum loaded ::ₘ r ∧
      ∀ d, d.type ≠ .free → K (inum, d) (.locked ip inum false d d ::ₘ r)
  | .iunlock ip, hs, K => ∃ inum d r, hs = .locked ip inum false d d ::ₘ r ∧
      K () (.ref ip inum true ::ₘ r)
  | .iupdate ip d', hs, K => ∃ inum freeing m d r,
      hs = .locked ip inum freeing m d ::ₘ r ∧ m.blocks ⊆ d'.blocks ∧ (d.Whole → d'.Whole) ∧
      (freeing = true → d'.nlink = 0) ∧
      (d'.type ≠ .free ∧ K () (.locked ip inum freeing d' d' ::ₘ r) ∨
        d'.type = .free ∧ freeing = true ∧ d'.blocks = [] ∧ K () (.freed ip inum ::ₘ r))
  | .iput ip, hs, K => ∃ inum loaded r, hs = .ref ip inum loaded ::ₘ r ∧
      (∀ x ∈ r, x.puts = false) ∧ K none r ∧
      ∀ d, d.type ≠ .free → d.nlink = 0 → K (some d) (.locked ip inum true d d ::ₘ r)
  | .invalidate ip, hs, K => ∃ inum r, hs = .freed ip inum ::ₘ r ∧ K () (.dropping ip inum ::ₘ r)
  | .drop ip, hs, K => ∃ inum r, hs = .dropping ip inum ::ₘ r ∧ (∀ x ∈ r, x.puts = false) ∧
      K () r
  | .claim inum type, hs, K => type ≠ .free ∧ K false hs ∧ K true (.claimed inum ::ₘ hs)
  | .balloc ip indirect, hs, K => ∃ inum m d r, hs = .locked ip inum false m d ::ₘ r ∧
      (indirect = true → m.indirect = none) ∧ K none hs ∧
      ∀ b, K (some b) (.locked ip inum false (m.grow indirect b) d ::ₘ r)
  | .bfree ip b indirect, hs, K => ∃ inum freeing m d r,
      hs = .locked ip inum freeing m d ::ₘ r ∧ (indirect = true → m.indirect = some b) ∧
      K () (.locked ip inum freeing (m.shrink indirect b) d ::ₘ r)
  | .takeCwd, hs, K => ∀ ip inum loaded, K ip (.ref ip inum loaded ::ₘ .adrift ::ₘ hs)
  | .setCwd ip, hs, K => ∃ inum r, hs = .ref ip inum true ::ₘ .adrift ::ₘ r ∧ K () r
  | .filealloc, hs, K => K none hs ∧ ∀ fd, K (some fd) (.reserved fd ::ₘ hs)
  | .fileInit fd ip, hs, K => ∃ inum r, hs = .ref ip inum true ::ₘ .reserved fd ::ₘ r ∧ K () r
  | .fileclose _, hs, K => (∀ fd, .reserved fd ∉ hs) ∧ K none hs ∧ K (some none) hs ∧
      ∀ ip inum loaded, K (some (some ip)) (.ref ip inum loaded ::ₘ hs)
  | .dup _, hs, K => (∀ fd, .reserved fd ∉ hs) ∧ ∀ r, K r hs
  | .fork, hs, K => (∀ fd, .reserved fd ∉ hs) ∧ ∀ r, K r hs
  | .exit, hs, K => (∀ fd, .reserved fd ∉ hs) ∧ ∃ r, hs = .adrift ::ₘ r ∧ K () r
  | .panic m, _, _ => m.misuse = false

theorem allows_mono {o : Op} {hs : Multiset Hold} {K K' : Reply o → Multiset Hold → Prop}
    (h : allows o hs K) (hK : ∀ r hs', K r hs' → K' r hs') : allows o hs K' := by
  cases o with
  | iget inum ialloc =>
    cases ialloc with
    | false => exact fun ip => hK _ _ (h ip)
    | true =>
      obtain ⟨r, hr, hk⟩ := h
      exact ⟨r, hr, fun ip => hK _ _ (hk ip)⟩
  | idupCwd => exact fun ip inum => hK _ _ (h ip inum)
  | acquiresleep ip =>
    obtain ⟨inum, loaded, r, hr, hk⟩ := h
    exact ⟨inum, loaded, r, hr, hK _ _ hk⟩
  | load ip =>
    obtain ⟨inum, loaded, r, hr, hk⟩ := h
    exact ⟨inum, loaded, r, hr, fun d hd => hK _ _ (hk d hd)⟩
  | iunlock ip =>
    obtain ⟨inum, d, r, hr, hk⟩ := h
    exact ⟨inum, d, r, hr, hK _ _ hk⟩
  | iupdate ip d' =>
    obtain ⟨inum, freeing, m, d, r, hr, hb, hw, hn, hk⟩ := h
    refine ⟨inum, freeing, m, d, r, hr, hb, hw, hn, ?_⟩
    rcases hk with ⟨ht, hk⟩ | ⟨ht, hf, he, hk⟩
    · exact .inl ⟨ht, hK _ _ hk⟩
    · exact .inr ⟨ht, hf, he, hK _ _ hk⟩
  | iput ip =>
    obtain ⟨inum, loaded, r, hr, hn, hk, hk'⟩ := h
    exact ⟨inum, loaded, r, hr, hn, hK _ _ hk, fun d ht hn => hK _ _ (hk' d ht hn)⟩
  | invalidate ip =>
    obtain ⟨inum, r, hr, hk⟩ := h
    exact ⟨inum, r, hr, hK _ _ hk⟩
  | drop ip =>
    obtain ⟨inum, r, hr, hn, hk⟩ := h
    exact ⟨inum, r, hr, hn, hK _ _ hk⟩
  | claim inum type => exact ⟨h.1, hK _ _ h.2.1, hK _ _ h.2.2⟩
  | balloc ip indirect =>
    obtain ⟨inum, m, d, r, hr, hi, hk, hk'⟩ := h
    exact ⟨inum, m, d, r, hr, hi, hK _ _ hk, fun b => hK _ _ (hk' b)⟩
  | bfree ip b indirect =>
    obtain ⟨inum, freeing, m, d, r, hr, hi, hk⟩ := h
    exact ⟨inum, freeing, m, d, r, hr, hi, hK _ _ hk⟩
  | takeCwd => exact fun ip inum loaded => hK _ _ (h ip inum loaded)
  | setCwd ip =>
    obtain ⟨inum, r, hr, hk⟩ := h
    exact ⟨inum, r, hr, hK _ _ hk⟩
  | filealloc => exact ⟨hK _ _ h.1, fun fd => hK _ _ (h.2 fd)⟩
  | fileInit fd ip =>
    obtain ⟨inum, r, hr, hk⟩ := h
    exact ⟨inum, r, hr, hK _ _ hk⟩
  | fileclose fd =>
    exact ⟨h.1, hK _ _ h.2.1, hK _ _ h.2.2.1,
      fun ip inum loaded => hK _ _ (h.2.2.2 ip inum loaded)⟩
  | dup fd => exact ⟨h.1, fun r => hK _ _ (h.2 r)⟩
  | fork => exact ⟨h.1, fun r => hK _ _ (h.2 r)⟩
  | exit =>
    obtain ⟨hn, r, hr, hk⟩ := h
    exact ⟨hn, r, hr, hK _ _ hk⟩
  | panic m => exact h

/-- How the code uses inodes. -/
def table : Discipline Op Reply (Multiset Hold) := ⟨allows, allows_mono⟩

end Xv6.Fs
