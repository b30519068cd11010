import Xv6.Bio.Model

namespace Xv6.Bio

open Xv6.Framework Function

variable {α : Type} {l : List (Fin NBUF)} {b : Fin NBUF} {k : Block} {s t : State α} {a : Call α}
  {tr : List (Event (State α) (Call α))} {disk : Block → α} {junk : Fin NBUF → α}

/-- What was last put into a block is in its buffer, or on disk if it has no valid one. -/
structure Stored (s : State α) : Prop where
  cached : ∀ b, s.cache.valid b → (s.cache.block b).1 ≠ 0 → s.data b = s.store (s.cache.block b)
  clean : ∀ b, s.refs b = 0 → s.cache.valid b → (s.cache.block b).1 ≠ 0 →
    s.disk (s.cache.block b) = s.data b
  disk : ∀ k : Block, k.1 ≠ 0 → (∀ b, s.cache.block b = k → ¬s.cache.valid b) → s.disk k = s.store k

/-- The data of a buffer whose last reference goes are on disk. -/
def Clean (e : Event (State α) (Call α)) : Prop :=
  ∀ b, e.pre.refs b ≠ 0 → e.post.refs b = 0 → e.pre.cache.valid b →
    e.pre.disk (e.pre.cache.block b) = e.pre.data b

namespace Stored

theorem recount (hs : Stored s) (hc : Clean ⟨s, a, t⟩) (hv : t.cache.valid = s.cache.valid)
    (hb : t.cache.block = s.cache.block) (hd : t.data = s.data) (hk : t.disk = s.disk)
    (ht : t.store = s.store) : Stored t := by
  refine ⟨?_, fun b h0 => ?_, ?_⟩ <;> simp only [hv, hb, hd, hk, ht]
  · exact hs.cached
  · intro hvb h1
    by_cases hr : s.refs b = 0
    · exact hs.clean b hr hvb h1
    · exact hc b hr h0 hvb
  · exact hs.disk

theorem recycle (hs : Stored s) (hb : s.refs b = 0) :
    Stored { s with cache := s.cache.recycle b k, refs := update s.refs b (s.refs b + 1) } := by
  obtain ⟨h1, h2, h3⟩ := hs
  refine ⟨fun x => ?_, fun x => ?_, fun j hj hno => ?_⟩ <;>
    simp only [Bcache.recycle, update_apply] at *
  · grind
  · grind
  · -- the block that the buffer had is on disk
    by_cases hv : s.cache.valid b ∧ s.cache.block b = j
    · grind
    · exact h3 j hj fun x hx => by grind

theorem step (hi : Inv s l) (hs : Stored s) (h : next s a = some t) (hc : Clean ⟨s, a, t⟩) :
    Stored t := by
  cases a with
  | bget k =>
    obtain ⟨⟨b, c⟩, hg, rfl⟩ := Option.map_eq_some_iff.mp h
    rcases hi.bget_cases k with ⟨d, -, hd⟩ | ⟨hno, ⟨-, hd⟩ | ⟨d, h0, -, hd⟩⟩ <;>
      cases hd.symm.trans hg
    · exact hs.recount hc rfl rfl rfl rfl rfl
    · exact hs.recycle h0
  | brelse b =>
    cases (Option.ite_none_left_eq_some.mp h).2
    apply hs.recount hc <;> simp only [Bcache.brelse] <;> split <;> rfl
  | bpin b =>
    cases (Option.ite_none_left_eq_some.mp h).2
    exact hs.recount hc rfl rfl rfl rfl rfl
  | bunpin b =>
    cases (Option.ite_none_left_eq_some.mp h).2
    exact hs.recount hc rfl rfl rfl rfl rfl
  | _ =>
    obtain ⟨h0, h⟩ := Option.ite_none_left_eq_some.mp h
    cases h
    obtain ⟨h1, h2, h3⟩ := hs
    have h4 := hi.single
    refine ⟨fun x => ?_, fun x => ?_, fun j => ?_⟩ <;> simp only [update_apply] <;> grind

end Stored

/-- The cache and the disk are one store of blocks, if no buffer loses its last reference before
its data are on disk: a valid buffer has what was last put into its block. -/
theorem bcache_store (hp : Path next (init disk junk) tr s) (hc : ∀ e ∈ tr, Clean e) :
    (∀ b, s.cache.valid b → (s.cache.block b).1 ≠ 0 → s.data b = s.store (s.cache.block b)) ∧
    ∀ k : Block, k.1 ≠ 0 → (∀ b, s.cache.block b = k → ¬s.cache.valid b) → s.disk k = s.store k := by
  have hv : ∀ b, (init disk junk).cache.valid b = false := congrFun (foldl_insert _ _).2.2
  obtain ⟨-, hs⟩ := hp.invariant (I := fun s => (∃ l, Inv s l) ∧ Stored s)
    (fun _ _ _ ⟨⟨_, hi⟩, hs⟩ h hC => ⟨hi.step h, hs.step hi h hC⟩)
    ⟨⟨_, inv_init disk junk⟩, fun b h => absurd h (by simp [hv]), fun b _ h => absurd h (by simp [hv]),
      fun _ _ _ => rfl⟩ hc
  exact ⟨hs.cached, hs.disk⟩

theorem bcache_store_reused : reused.data 0 = 9 := by
  have hc : ∀ e ∈ events next start reuse, Clean e := by
    unfold Clean
    decide +kernel
  rw [(bcache_store reuse_path hc).1 0 (by decide +kernel) (by decide +kernel)]
  decide +kernel

end Xv6.Bio
