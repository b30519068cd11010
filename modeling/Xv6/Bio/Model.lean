import Xv6.Framework.Linked
import Xv6.Framework.Transition
import Xv6.Param
import Mathlib.Data.Fintype.Card

namespace Xv6.Bio

open Xv6.Framework Function

def NBUF : Nat := MAXOPBLOCKS * 3

instance : NeZero NBUF := ⟨by decide⟩

/-- A buffer of bcache.buf, or &bcache.head. -/
abbrev Ptr := Option (Fin NBUF)

/-- dev and blockno. -/
abbrev Block := Nat × Nat

/-- The buffers without their data. -/
structure Bcache where
  valid : Fin NBUF → Bool
  block : Fin NBUF → Block
  refcnt : Fin NBUF → Nat
  prev : Ptr → Ptr
  next : Ptr → Ptr

namespace Bcache

/-- The end of brelse, and the loop of binit: a buffer gets behind the head. -/
def insert (c : Bcache) (b : Fin NBUF) : Bcache :=
  let c := { c with next := update c.next b (c.next none), prev := update c.prev b none }
  let c := { c with prev := update c.prev (c.next none) b }
  { c with next := update c.next none b }

def binit : Bcache := (List.finRange NBUF).foldl insert
  ⟨fun _ => false, fun _ => (0, 0), fun _ => 0, fun _ => none, fun _ => none⟩

def recycle (c : Bcache) (b : Fin NBUF) (k : Block) : Bcache := { c with
  block := update c.block b k
  valid := update c.valid b false
  refcnt := update c.refcnt b 1 }

/-- The walks end at the head at the latest. `none` is the panic for want of buffers. -/
def bget (c : Bcache) (k : Block) : Option (Fin NBUF × Bcache) :=
  match (walk c.next (fun b => b.all (c.block · = k)) (NBUF + 1) (c.next none)).join with
  | some b => some (b, { c with refcnt := update c.refcnt b (c.refcnt b + 1) })
  | none => (walk c.prev (fun b => b.all (c.refcnt · = 0)) (NBUF + 1) (c.prev none)).join.map
      fun b => (b, c.recycle b k)

def unlink (c : Bcache) (b : Fin NBUF) : Bcache :=
  let c := { c with prev := update c.prev (c.next b) (c.prev b) }
  { c with next := update c.next (c.prev b) (c.next b) }

def brelse (c : Bcache) (b : Fin NBUF) : Bcache :=
  let c := { c with refcnt := update c.refcnt b (c.refcnt b - 1) }
  if c.refcnt b = 0 then (c.unlink b).insert b else c

def bpin (c : Bcache) (b : Fin NBUF) : Bcache :=
  { c with refcnt := update c.refcnt b (c.refcnt b + 1) }

def bunpin (c : Bcache) (b : Fin NBUF) : Bcache :=
  { c with refcnt := update c.refcnt b (c.refcnt b - 1) }

end Bcache

variable {α : Type}

/-- What those do who use buffers: the sections of bcache.lock and, with the lock of the buffer,
the end of bread for a buffer that is not valid, a change of the data, and bwrite. -/
inductive Call (α : Type)
  | bget (k : Block)
  | brelse (b : Fin NBUF)
  | bpin (b : Fin NBUF)
  | bunpin (b : Fin NBUF)
  | bread (b : Fin NBUF)
  | modify (b : Fin NBUF) (v : α)
  | bwrite (b : Fin NBUF)

/-- The code does not have the last four fields: how many references to each buffer are out, the
number of brelses so far, which of them last left each buffer unused, and what was last put into
each block. -/
structure State (α : Type) where
  cache : Bcache
  data : Fin NBUF → α
  disk : Block → α
  refs : Fin NBUF → Nat
  clock : Nat
  left : Fin NBUF → Nat
  store : Block → α

def init (disk : Block → α) (junk : Fin NBUF → α) : State α :=
  ⟨.binit, junk, disk, fun _ => 0, 0, fun _ => 0, disk⟩

/-- Who has no reference to a buffer leaves it alone, and bread comes before any use of the data. The
locks of the buffers, which allow less, are left out. -/
def next (s : State α) : Call α → Option (State α)
  | .bget k => (s.cache.bget k).map fun (b, c) =>
      { s with cache := c, refs := update s.refs b (s.refs b + 1) }
  | .brelse b => if s.refs b = 0 then none else some { s with
      cache := s.cache.brelse b
      refs := update s.refs b (s.refs b - 1)
      clock := s.clock + 1
      left := if s.refs b = 1 then update s.left b (s.clock + 1) else s.left }
  | .bpin b => if s.refs b = 0 then none else some
      { s with cache := s.cache.bpin b, refs := update s.refs b (s.refs b + 1) }
  | .bunpin b => if s.refs b = 0 then none else some
      { s with cache := s.cache.bunpin b, refs := update s.refs b (s.refs b - 1) }
  | .bread b => if s.refs b = 0 ∨ s.cache.valid b then none else some { s with
      cache := { s.cache with valid := update s.cache.valid b true }
      data := update s.data b (s.disk (s.cache.block b)) }
  | .modify b v => if s.refs b = 0 ∨ ¬s.cache.valid b then none else some
      { s with data := update s.data b v, store := update s.store (s.cache.block b) v }
  | .bwrite b => if s.refs b = 0 ∨ ¬s.cache.valid b then none else some
      { s with disk := update s.disk (s.cache.block b) (s.data b) }

/-- The buffers are on one ring, in the order in which they were last released. -/
structure Inv (s : State α) (l : List (Fin NBUF)) : Prop where
  ring : Ring s.cache.next s.cache.prev none (l.map some)
  all : ∀ b, b ∈ l
  counts : s.cache.refcnt = s.refs
  single : ∀ a b, (s.cache.block a).1 ≠ 0 → s.cache.block a = s.cache.block b → a = b
  order : l.Pairwise fun a b => s.left b ≤ s.left a
  clock : ∀ b, s.left b ≤ s.clock

variable {c : Bcache} {l l₁ l₂ : List (Fin NBUF)} {b : Fin NBUF} {k : Block} {s t : State α}
  {a : Call α} {disk : Block → α} {junk : Fin NBUF → α} {tr : List (Event (State α) (Call α))}

theorem ring_insert (h : Ring c.next c.prev none (l.map some)) (hb : b ∉ l) :
    Ring (c.insert b).next (c.insert b).prev none ((b :: l).map some) := by
  have hr := h.insert (b := some b) (by simpa using hb)
  have hn : update c.next (some b) (c.next none) none = c.next none := update_of_ne (by simp) _ _
  simpa [Bcache.insert, hn] using hr

theorem ring_unlink (h : Ring c.next c.prev none ((l₁ ++ b :: l₂).map some)) :
    Ring (c.unlink b).next (c.unlink b).prev none ((l₁ ++ l₂).map some) := by
  have hr := Ring.unlink (by rwa [List.map_append, List.map_cons] at h)
  have hp : update c.prev (c.next b) (c.prev b) b = c.prev b := by
    rw [update_apply]
    split <;> rfl
  simpa [Bcache.unlink, hp] using hr

theorem ring_binit {m : List (Fin NBUF)} (h : Ring c.next c.prev none (m.map some))
    (hn : (m ++ l).Nodup) :
    Ring (l.foldl Bcache.insert c).next (l.foldl Bcache.insert c).prev none
      ((l.reverse ++ m).map some) := by
  induction l generalizing c m with
  | nil => exact h
  | cons b l ih =>
    have hb : (b :: m ++ l).Nodup := List.perm_middle.nodup_iff.mp hn
    rw [List.reverse_cons, List.append_assoc]
    exact ih (ring_insert h fun hm => (List.nodup_cons.mp hb).1 (List.mem_append_left l hm)) hb

theorem foldl_insert (l : List (Fin NBUF)) (c : Bcache) : (l.foldl Bcache.insert c).refcnt = c.refcnt ∧
    (l.foldl Bcache.insert c).block = c.block ∧ (l.foldl Bcache.insert c).valid = c.valid := by
  induction l generalizing c with
  | nil => exact ⟨rfl, rfl, rfl⟩
  | cons b l ih => exact ih (c.insert b)

theorem inv_init (disk : Block → α) (junk : Fin NBUF → α) :
    Inv (init disk junk) (List.finRange NBUF).reverse where
  ring := by
    have h := ring_binit (c := ⟨fun _ => false, fun _ => (0, 0), fun _ => 0, fun _ => none,
      fun _ => none⟩) (m := []) ⟨by simp, rfl, rfl⟩ (List.nodup_finRange NBUF)
    rwa [List.append_nil] at h
  all b := by simp
  counts := (foldl_insert _ _).1
  single a b ha := absurd (congrArg Prod.fst (congrFun (foldl_insert _ _).2.1 a)) ha
  order := List.pairwise_of_forall fun _ _ => Nat.le_refl 0
  clock b := Nat.le_refl 0

namespace Inv

theorem recount {f : Fin NBUF → Nat} {n : Nat} (hi : Inv s l) (hn : s.clock ≤ n) :
    Inv { s with cache := { s.cache with refcnt := f }, refs := f, clock := n } l :=
  ⟨hi.ring, hi.all, rfl, hi.single, hi.order, fun b => (hi.clock b).trans hn⟩

/-- bget finds the block, or recycles the buffer that has been out of use longest. -/
theorem bget_cases (hi : Inv s l) (k : Block) :
    (∃ b, s.cache.block b = k ∧ s.cache.bget k = some (b, s.cache.bpin b)) ∨
    (∀ b, s.cache.block b ≠ k) ∧ ((∀ b, s.refs b ≠ 0) ∧ s.cache.bget k = none ∨
      ∃ b, s.refs b = 0 ∧ (∀ d, s.refs d = 0 → s.left b ≤ s.left d) ∧
        s.cache.bget k = some (b, s.cache.recycle b k)) := by
  have hlen : l.length < NBUF + 1 := by
    have := List.Nodup.length_le_card ((List.nodup_cons.mp hi.ring.nodup).2.of_map some)
    rw [Fintype.card_fin] at this
    exact Nat.lt_succ_of_le this
  have hback := hi.ring.back
  rw [← List.map_reverse] at hback
  have hlen' : l.reverse.length < NBUF + 1 := by rwa [List.length_reverse]
  simp only [Bcache.bget, walk_find _ hi.ring.fore hlen, walk_find _ hback hlen', Option.join_some]
  cases hf : l.find? (s.cache.block · = k) with
  | some b => exact .inl ⟨b, by simpa using List.find?_some hf, rfl⟩
  | none =>
    refine .inr ⟨fun b => by simpa using List.find?_eq_none.mp hf b (hi.all b), ?_⟩
    rw [← hi.counts]
    cases hg : l.reverse.find? (s.cache.refcnt · = 0) with
    | none =>
      exact .inl ⟨fun b => by simpa using List.find?_eq_none.mp hg b (by simp [hi.all b]), rfl⟩
    | some b =>
      obtain ⟨hb, l₂, l₁, hl, hno⟩ := List.find?_eq_some_iff_append.mp hg
      refine .inr ⟨b, by simpa using hb, fun d hd => ?_, rfl⟩
      have hl' : l = l₁.reverse ++ b :: l₂.reverse := by
        rw [← List.reverse_reverse l, hl]
        simp
      have ho := hi.order
      have hm := hi.all d
      rw [hl'] at ho hm
      simp only [List.mem_append, List.mem_cons, List.mem_reverse] at hm
      -- what is behind `b` on the list is in use
      rcases hm with hm | rfl | hm
      · exact (List.pairwise_append.mp ho).2.2 d (by simpa using hm) b List.mem_cons_self
      · exact Nat.le_refl _
      · exact absurd hd (by simpa using hno d hm)

/-- A buffer that nobody uses gets a block that no buffer has. -/
theorem recycle (hi : Inv s l) (hb : s.refs b = 0) (hno : ∀ b, s.cache.block b ≠ k) :
    Inv { s with cache := s.cache.recycle b k, refs := update s.refs b (s.refs b + 1) } l where
  ring := hi.ring
  all := hi.all
  counts := by rw [hb, ← hi.counts]; rfl
  single x y := by
    have := hi.single x y
    simp only [Bcache.recycle, update_apply]
    grind
  order := hi.order
  clock := hi.clock

theorem release (hi : Inv s (l₁ ++ b :: l₂)) (hb : s.refs b = 1) :
    Inv { s with
      cache := s.cache.brelse b
      refs := update s.refs b 0
      clock := s.clock + 1
      left := update s.left b (s.clock + 1) } (b :: (l₁ ++ l₂)) := by
  have hn : (b :: (l₁ ++ l₂)).Nodup :=
    List.perm_middle.nodup_iff.mp ((List.nodup_cons.mp hi.ring.nodup).2.of_map some)
  have hleft : ∀ x ∈ l₁ ++ l₂, update s.left b (s.clock + 1) x = s.left x := fun x hx =>
    update_of_ne (ne_of_mem_of_not_mem hx (List.nodup_cons.mp hn).1) _ _
  have hc : s.cache.brelse b =
      ({ s.cache with refcnt := update s.refs b 0 }.unlink b).insert b := by
    simp [Bcache.brelse, hi.counts, hb]
  rw [hc]
  refine ⟨ring_insert (ring_unlink hi.ring) (List.nodup_cons.mp hn).1,
    fun x => List.perm_middle.mem_iff.mp (hi.all x), rfl, hi.single,
    List.pairwise_cons.mpr ⟨fun x hx => ?_, ?_⟩, fun x => ?_⟩
  · show update s.left b _ x ≤ update s.left b _ b
    rw [update_self, hleft x hx]
    exact Nat.le_succ_of_le (hi.clock x)
  · refine (hi.order.sublist (.append_left (List.sublist_cons_self b l₂) l₁)).imp_of_mem ?_
    intro x y hx hy h
    show update s.left b _ y ≤ update s.left b _ x
    rwa [hleft x hx, hleft y hy]
  · have := hi.clock x
    show update s.left b _ x ≤ s.clock + 1
    rw [update_apply]
    split <;> omega

theorem step (hi : Inv s l) (h : next s a = some t) : ∃ l, Inv t l := by
  cases a with
  | bget k =>
    obtain ⟨⟨b, c⟩, hg, rfl⟩ := Option.map_eq_some_iff.mp h
    rcases hi.bget_cases k with ⟨d, -, hd⟩ | ⟨hno, ⟨-, hd⟩ | ⟨d, h0, -, hd⟩⟩ <;>
      cases hd.symm.trans hg
    · exact ⟨l, by simpa only [Bcache.bpin, hi.counts] using hi.recount (Nat.le_refl _)⟩
    · exact ⟨l, hi.recycle h0 hno⟩
  | brelse b =>
    obtain ⟨h0, h⟩ := Option.ite_none_left_eq_some.mp h
    cases h
    by_cases h1 : s.refs b = 1
    · obtain ⟨l₁, l₂, rfl⟩ := List.append_of_mem (hi.all b)
      simp only [h1, if_pos]
      exact ⟨_, hi.release h1⟩
    · have hc : s.cache.brelse b = { s.cache with refcnt := update s.refs b (s.refs b - 1) } := by
        simp only [Bcache.brelse, hi.counts, update_self]
        rw [if_neg (by omega)]
      rw [hc, if_neg h1]
      exact ⟨l, hi.recount (Nat.le_succ _)⟩
  | bpin b =>
    cases (Option.ite_none_left_eq_some.mp h).2
    exact ⟨l, by simpa only [Bcache.bpin, hi.counts] using hi.recount (Nat.le_refl _)⟩
  | bunpin b =>
    cases (Option.ite_none_left_eq_some.mp h).2
    exact ⟨l, by simpa only [Bcache.bunpin, hi.counts] using hi.recount (Nat.le_refl _)⟩
  | _ =>
    -- neither the ring nor the references change
    cases (Option.ite_none_left_eq_some.mp h).2
    exact ⟨l, hi.ring, hi.all, hi.counts, hi.single, hi.order, hi.clock⟩

/-- A buffer that is in use stays the buffer of its block. -/
theorem keeps (hi : Inv s l) (h : next s a = some t) (hb : s.refs b ≠ 0) :
    t.cache.block b = s.cache.block b := by
  cases a with
  | bget k =>
    obtain ⟨⟨b', c⟩, hg, rfl⟩ := Option.map_eq_some_iff.mp h
    rcases hi.bget_cases k with ⟨d, -, hd⟩ | ⟨-, ⟨-, hd⟩ | ⟨d, h0, -, hd⟩⟩ <;>
      cases hd.symm.trans hg
    · rfl
    · exact update_of_ne (fun he : b = b' => hb (he ▸ h0)) _ _
  | brelse d =>
    cases (Option.ite_none_left_eq_some.mp h).2
    simp only [Bcache.brelse]
    split <;> rfl
  | _ =>
    cases (Option.ite_none_left_eq_some.mp h).2
    rfl

end Inv

theorem inv_run (hp : Path next (init disk junk) tr s) : ∃ l, Inv s l :=
  hp.invariant (I := fun s => ∃ l, Inv s l) (C := fun _ => True)
    (fun _ _ _ ⟨_, hi⟩ h _ => hi.step h) ⟨_, inv_init disk junk⟩ fun _ _ => trivial

/-- A block is changed, written and given back, another is pinned, and the first is found again. -/
def reuse : List (Call Nat) := [.bget (1, 5), .bread 0, .modify 0 9, .bwrite 0, .bget (1, 7), .bpin 1,
  .brelse 0, .brelse 1, .bget (1, 5)]

abbrev start : State Nat := init (fun _ => 0) fun _ => 3

abbrev reused : State Nat := final next start reuse

theorem reuse_path : Path next start (events next start reuse) reused :=
  path_final (by decide +kernel)

/-- After any calls the links lead through all buffers once, and back the same way, and refcnt
counts the references that are out. -/
theorem bcache_ring (hp : Path next (init disk junk) tr s) :
    ∃ l : List (Fin NBUF), l.Nodup ∧ (∀ b, b ∈ l) ∧ Linked s.cache.next none (l.map some) none ∧
      Linked s.cache.prev none (l.reverse.map some) none ∧ s.cache.refcnt = s.refs := by
  obtain ⟨l, hi⟩ := inv_run hp
  exact ⟨l, (List.nodup_cons.mp hi.ring.nodup).2.of_map, hi.all, hi.ring.fore,
    List.map_reverse ▸ hi.ring.back, hi.counts⟩

theorem bcache_ring_reused : reused.cache.refcnt 1 = 1 ∧
    ∃ l : List (Fin NBUF), Linked reused.cache.next none (l.map some) none := by
  obtain ⟨l, -, -, h, -, hr⟩ := bcache_ring reuse_path
  exact ⟨hr ▸ by decide +kernel, l, h⟩

/-- A block of a real device has one buffer at most, which is not taken from those who use it. -/
theorem bcache_single (hp : Path next (init disk junk) tr s) :
    (∀ a b, (s.cache.block a).1 ≠ 0 → s.cache.block a = s.cache.block b → a = b) ∧
    ∀ e ∈ tr, ∀ b, e.pre.refs b ≠ 0 → e.post.cache.block b = e.pre.cache.block b := by
  obtain ⟨l, hi⟩ := inv_run hp
  refine ⟨hi.single, fun e he b hb => ?_⟩
  obtain ⟨l₁, l₂, rfl⟩ := List.append_of_mem he
  obtain ⟨hp', hn, -⟩ := hp.split
  exact (inv_run hp').choose_spec.keeps hn hb

theorem bcache_single_reused :
    reused.cache.block 0 = (1, 5) ∧ ∀ b, reused.cache.block b = (1, 5) → b = 0 := by
  have h0 : reused.cache.block 0 = (1, 5) := by decide +kernel
  exact ⟨h0, fun b hb => (bcache_single reuse_path).1 b 0 (hb ▸ by decide) (hb.trans h0.symm)⟩

/-- bget answers with a buffer of the block. If there is none, it recycles the one of those out of
use that has been so longest, and it panics only when all are in use. -/
theorem bget_lru (hp : Path next (init disk junk) tr s) {r : Option (Fin NBUF × Bcache)}
    (hr : s.cache.bget k = r) :
    match r with
    | none => ∀ b, s.refs b ≠ 0 ∧ s.cache.block b ≠ k
    | some (b, c) => c.block b = k ∧ (s.cache.block b = k ∧ c.valid = s.cache.valid ∨
        (∀ b, s.cache.block b ≠ k) ∧ c.valid b = false ∧ s.refs b = 0 ∧
          ∀ d, s.refs d = 0 → s.left b ≤ s.left d) := by
  obtain ⟨l, hi⟩ := inv_run hp
  rcases hi.bget_cases k with ⟨b, hb, hg⟩ | ⟨hno, ⟨hu, hg⟩ | ⟨b, h0, hl, hg⟩⟩ <;>
    cases hg.symm.trans hr
  · exact ⟨hb, .inl ⟨hb, rfl⟩⟩
  · exact fun b => ⟨hu b, hno b⟩
  · exact ⟨update_self _ _ _, .inr ⟨hno, update_self _ _ _, h0, hl⟩⟩

theorem bget_lru_reused : ∃ b c, reused.cache.bget (1, 11) = some (b, c) ∧ c.block b = (1, 11) := by
  have hs : (reused.cache.bget (1, 11)).isSome := by decide +kernel
  obtain ⟨⟨b, c⟩, hg⟩ := Option.isSome_iff_exists.mp hs
  exact ⟨b, c, hg, (bget_lru reuse_path hg).1⟩

end Xv6.Bio
