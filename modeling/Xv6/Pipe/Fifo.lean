import Xv6.Pipe.Model

namespace Xv6.Pipes

open Xv6.Framework Xv6.Framework.Monitor

/-- The counters never lose step with the bytes stored and removed, and the ring has those in
between. -/
structure Fifo (pi : Pipe) : Prop where
  le : pi.removed.length ≤ pi.stored.length
  room : pi.stored.length ≤ pi.removed.length + PIPESIZE
  nread : pi.nread = BitVec.ofNat 32 pi.removed.length
  nwrite : pi.nwrite = BitVec.ofNat 32 pi.stored.length
  removed : pi.removed = (pi.stored.take pi.removed.length).map Stored.byte
  held : ∀ j x, pi.removed.length ≤ j → pi.stored[j]? = some x →
    pi.data (slot (BitVec.ofNat 32 j)) = x.byte

/-- PIPESIZE divides 2^32, so the places do not jump when a counter wraps. -/
theorem slot_ofNat (j : Nat) : (slot (BitVec.ofNat 32 j)).val = j % PIPESIZE := by
  show (BitVec.ofNat 32 j).toNat % PIPESIZE = j % PIPESIZE
  exact Nat.mod_mod_of_dvd j (by decide)

theorem slot_ne {i j : Nat} (h : i < j) (hj : j < i + PIPESIZE) :
    slot (BitVec.ofNat 32 i) ≠ slot (BitVec.ofNat 32 j) := by
  intro hs
  have h' := congrArg Fin.val hs
  rw [slot_ofNat, slot_ofNat] at h'
  simp only [PIPESIZE] at h' hj
  omega

namespace Fifo

variable {pi : Pipe}

theorem init (junk : Fin PIPESIZE → UInt8) : Fifo (.init junk) := by
  refine ⟨Nat.le_refl _, Nat.zero_le _, rfl, rfl, rfl, fun j x _ hx => ?_⟩
  simp [Pipe.init] at hx

theorem put {call index : Nat} {ch : UInt8} (hf : Fifo pi) (hfull : ¬pi.Full) :
    Fifo (pi.put call index ch) := by
  have hlt : pi.stored.length < pi.removed.length + PIPESIZE := by
    refine Nat.lt_of_le_of_ne hf.room fun he => hfull ?_
    rw [Pipe.Full, hf.nwrite, hf.nread, he, BitVec.ofNat_add]
  have hle := hf.le
  refine ⟨?_, ?_, hf.nread, ?_, ?_, ?_⟩
  · simp only [Pipe.put, List.length_append]
    omega
  · simp only [Pipe.put, List.length_append, List.length_singleton]
    omega
  · simp only [Pipe.put, List.length_append, hf.nwrite, BitVec.ofNat_add]
    rfl
  · simp only [Pipe.put]
    rw [List.take_append_of_le_length hle]
    exact hf.removed
  · intro j x hj hx
    simp only [Pipe.put] at hj hx ⊢
    rw [hf.nwrite]
    by_cases hjw : j < pi.stored.length
    · rw [List.getElem?_append_left hjw] at hx
      rw [Function.update_of_ne (slot_ne hjw (by omega))]
      exact hf.held j x hj hx
    · rw [List.getElem?_append_right (by omega)] at hx
      obtain ⟨hz, hx⟩ := List.getElem?_eq_some_iff.mp hx
      simp only [List.length_singleton] at hz
      obtain rfl : j = pi.stored.length := by omega
      rw [← hx]
      simp

theorem take (hf : Fifo pi) (hne : pi.nread ≠ pi.nwrite) : Fifo pi.take := by
  have hlt : pi.removed.length < pi.stored.length := by
    refine Nat.lt_of_le_of_ne hf.le fun he => hne ?_
    rw [hf.nread, hf.nwrite, he]
  have hroom := hf.room
  obtain ⟨x, hx⟩ : ∃ x, pi.stored[pi.removed.length]? = some x :=
    ⟨_, List.getElem?_eq_getElem hlt⟩
  refine ⟨?_, ?_, ?_, hf.nwrite, ?_, ?_⟩
  · simp only [Pipe.take, List.length_append, List.length_singleton]
    omega
  · simp only [Pipe.take, List.length_append]
    omega
  · simp only [Pipe.take, List.length_append, hf.nread, BitVec.ofNat_add]
    rfl
  · simp only [Pipe.take, List.length_append, List.length_singleton]
    rw [List.take_add_one, hx, List.map_append, ← hf.removed, hf.nread,
      hf.held _ x (Nat.le_refl _) hx]
    rfl
  · intro j y hj hy
    simp only [Pipe.take, List.length_append] at hj
    exact hf.held j y (by omega) hy

theorem used (hf : Fifo pi) :
    (pi.nwrite - pi.nread).toNat = pi.stored.length - pi.removed.length := by
  have h1 := hf.le
  have h2 := hf.room
  simp only [PIPESIZE] at h2
  rw [hf.nread, hf.nwrite, BitVec.toNat_sub, BitVec.toNat_ofNat, BitVec.toNat_ofNat]
  omega

theorem ring (hf : Fifo pi) : pi.ring = (pi.stored.drop pi.removed.length).map Stored.byte := by
  apply List.ext_getElem?
  intro j
  rw [Pipe.ring, hf.used, List.getElem?_map, List.getElem?_map, List.getElem?_drop]
  by_cases hj : j < pi.stored.length - pi.removed.length
  · obtain ⟨x, hx⟩ : ∃ x, pi.stored[pi.removed.length + j]? = some x :=
      ⟨_, List.getElem?_eq_getElem (by omega)⟩
    rw [List.getElem?_range hj, hx, Option.map_some, Option.map_some, hf.nread, ← BitVec.ofNat_add,
      hf.held _ x (by omega) hx]
  · rw [List.getElem?_eq_none (by simpa using hj), List.getElem?_eq_none (by omega)]
    rfl

theorem split (hf : Fifo pi) : pi.stored.map Stored.byte = pi.removed ++ pi.ring := by
  rw [hf.ring]
  conv_rhs => rw [hf.removed]
  rw [List.length_map, List.length_take, ← List.map_append, Nat.min_eq_left hf.le,
    List.take_append_drop]

end Fifo

/-- The call of pipewrite that a process is in, once it has its number. -/
def Local.writing : Local → Option Write
  | .writeLoop v => some v
  | .writeKilled v => some v
  | .writeByte v => some v
  | .writeFull v => some v
  | .writeSleep v => some v
  | .writeEnd v => some v
  | .writeRelease v => some v
  | .writeFail v => some v
  | _ => none

/-- What a step of a process means for the bytes stored: nothing, the begin of a call, or one byte
more. -/
inductive Stores (d : Pipe) (l : Local) : Pipe → Local → Prop
  | keep {d' : Pipe} {m : Local} : d'.calls = d.calls → d'.stored = d.stored →
      (∀ v', m.writing = some v' → ∃ v, l.writing = some v ∧ v'.call = v.call ∧
        v'.buffer = v.buffer ∧ v'.i = v.i) → Stores d l d' m
  | begin {d' : Pipe} {v : Write} : d'.calls = d.calls ++ [v.buffer] → d'.stored = d.stored →
      v.call = d.calls.length → v.i = 0 → Stores d l d' (.writeLoop v)
  | store {v v' : Write} {ch : UInt8} : l.writing = some v → v.buffer v.i = some ch →
      v'.call = v.call → v'.buffer = v.buffer → v'.i = v.i + 1 →
      Stores d l (d.put v.call v.i ch) (.writeLoop v')

theorem Stores.same {d d' : Pipe} {l m : Local} (hc : d'.calls = d.calls)
    (hs : d'.stored = d.stored) (hm : m.writing = l.writing ∨ m.writing = none) :
    Stores d l d' m := by
  refine .keep hc hs fun v' hv' => ?_
  rcases hm with hm | hm
  · exact ⟨v', hm ▸ hv', rfl, rfl, rfl⟩
  · rw [hm] at hv'
    cases hv'

/-- An action of the code keeps the ring in order. -/
theorem act_stores {d : Pipe} {l : Local} {f : Pipe → Pipe × Local} (hf : Fifo d)
    (hc : code l = .act f) : Fifo (f d).1 ∧ Stores d l (f d).1 (f d).2 := by
  cases l with
  | writeCall buffer n =>
    cases hc
    exact ⟨⟨hf.le, hf.room, hf.nread, hf.nwrite, hf.removed, hf.held⟩, .begin rfl rfl rfl rfl⟩
  | writeLoop v =>
    cases hc
    refine ⟨hf, .same rfl rfl (.inl ?_)⟩
    show Local.writing (if _ then _ else _) = some v
    split
    · split <;> rfl
    · rfl
  | writeByte v =>
    cases hc
    show Fifo (ite _ _ _ : Pipe × Local).1 ∧
      Stores d _ (ite _ _ _ : Pipe × Local).1 (ite _ _ _ : Pipe × Local).2
    split
    · exact ⟨hf, .same rfl rfl (.inl rfl)⟩
    rename_i hfull
    split
    · exact ⟨hf, .same rfl rfl (.inl rfl)⟩
    · rename_i ch hch
      exact ⟨hf.put hfull, .store rfl hch rfl rfl rfl⟩
  | readLoop v =>
    cases hc
    refine ⟨hf, .same rfl rfl (.inr ?_)⟩
    show Local.writing (if _ then _ else _) = none
    split <;> rfl
  | readCopy v i =>
    cases hc
    show Fifo (ite _ _ _ : Pipe × Local).1 ∧
      Stores d _ (ite _ _ _ : Pipe × Local).1 (ite _ _ _ : Pipe × Local).2
    split
    · rename_i hne
      refine ⟨hf.take hne.2, .same rfl rfl (.inr ?_)⟩
      show Local.writing (if _ then _ else _) = none
      split <;> rfl
    · exact ⟨hf, .same rfl rfl (.inr rfl)⟩
  | closeFlag w =>
    cases hc
    cases w with
    | true =>
      exact ⟨⟨hf.le, hf.room, hf.nread, hf.nwrite, hf.removed, hf.held⟩, .same rfl rfl (.inr rfl)⟩
    | false =>
      exact ⟨⟨hf.le, hf.room, hf.nread, hf.nwrite, hf.removed, hf.held⟩, .same rfl rfl (.inr rfl)⟩
  | _ => cases hc

theorem goes_stores {d d' : Pipe} {l m : Local} (hf : Fifo d) (hg : Goes code enter d l d' m) :
    Fifo d' ∧ Stores d l d' m := by
  cases hg with
  | act hc => exact act_stores hf hc
  | acquire hc =>
    refine ⟨hf, .same rfl rfl (.inr ?_)⟩
    cases l <;> cases hc <;> rfl
  | release hc =>
    refine ⟨hf, .same rfl rfl (.inr ?_)⟩
    cases l <;> cases hc <;> rfl
  | killed b hc =>
    refine ⟨hf, ?_⟩
    cases l with
    | writeKilled v =>
      cases hc
      cases b <;> exact .same rfl rfl (.inl rfl)
    | readKilled v =>
      cases hc
      cases b <;> exact .same rfl rfl (.inr rfl)
    | _ => cases hc
  | wakeup hc =>
    refine ⟨hf, ?_⟩
    cases l with
    | writeFull v =>
      cases hc
      refine .keep rfl rfl fun v' hv' => ⟨v, rfl, ?_⟩
      cases hv'
      exact ⟨rfl, rfl, rfl⟩
    | writeEnd v =>
      cases hc
      exact .same rfl rfl (.inl rfl)
    | readEnd i =>
      cases hc
      exact .same rfl rfl (.inr rfl)
    | closeWake w =>
      cases hc
      exact .same rfl rfl (.inr rfl)
    | _ => cases hc
  | sleep hc =>
    refine ⟨hf, .same rfl rfl ?_⟩
    cases l with
    | writeSleep v =>
      cases hc
      exact .inl rfl
    | readSleep v =>
      cases hc
      exact .inr rfl
    | _ => cases hc
  | @call a m hc he =>
    refine ⟨hf, .same rfl rfl (.inr ?_)⟩
    cases l with
    | user r => cases a <;> (cases he; rfl)
    | _ => cases hc

def writing (s : State) (p : Fin NPROC) : Option Write := (s.status p).at.writing

/-- Each call has a number of its own, and has stored the bytes of its buffer from the first on. -/
structure InOrder (s : State) : Prop where
  fifo : Fifo s.data
  current : ∀ p v, writing s p = some v → s.data.calls[v.call]? = some v.buffer ∧
    (s.data.storedBy v.call).map Stored.index = List.range v.i
  distinct : ∀ p q v v', p ≠ q → writing s p = some v → writing s q = some v' → v.call ≠ v'.call
  order : ∀ k, ∃ m, (s.data.storedBy k).map Stored.index = List.range m
  bytes : ∀ x ∈ s.data.stored, ∃ b, s.data.calls[x.call]? = some b ∧ b x.index = some x.byte

namespace InOrder

variable {s t : State} {p : Fin NPROC}

theorem init (junk : Fin PIPESIZE → UInt8) : InOrder (init junk) :=
  ⟨.init junk, nofun, nofun, fun _ => ⟨0, rfl⟩, nofun⟩

theorem keep (ho : InOrder s) (hf : Fifo t.data)
    (hcalls : t.data.calls = s.data.calls) (hstored : t.data.stored = s.data.stored)
    (hp : ∀ v', writing t p = some v' → ∃ v, writing s p = some v ∧ v'.call = v.call ∧
      v'.buffer = v.buffer ∧ v'.i = v.i)
    (hne : ∀ q, q ≠ p → writing t q = writing s q) : InOrder t := by
  have hback : ∀ q v', writing t q = some v' → ∃ v, writing s q = some v ∧ v'.call = v.call ∧
      v'.buffer = v.buffer ∧ v'.i = v.i := by
    intro q v' hv'
    by_cases hq : q = p
    · subst hq
      exact hp v' hv'
    · rw [hne q hq] at hv'
      exact ⟨v', hv', rfl, rfl, rfl⟩
  refine ⟨hf, ?_, ?_, ?_, ?_⟩
  · intro q v' hv'
    obtain ⟨v, hv, hc, hb, hi⟩ := hback q v' hv'
    rw [hcalls, Pipe.storedBy, hstored, hc, hb, hi]
    exact ho.current q v hv
  · intro q q' v₁ v₂ hqq h₁ h₂
    obtain ⟨u₁, hu₁, hc₁, -⟩ := hback q v₁ h₁
    obtain ⟨u₂, hu₂, hc₂, -⟩ := hback q' v₂ h₂
    rw [hc₁, hc₂]
    exact ho.distinct q q' u₁ u₂ hqq hu₁ hu₂
  · intro k
    rw [Pipe.storedBy, hstored]
    exact ho.order k
  · rw [hstored, hcalls]
    exact ho.bytes

theorem call_lt {v : Write} (ho : InOrder s) (hv : writing s p = some v) :
    v.call < s.data.calls.length :=
  (List.getElem?_eq_some_iff.mp (ho.current p v hv).1).1

theorem begin {v : Write} (ho : InOrder s) (hf : Fifo t.data)
    (hcalls : t.data.calls = s.data.calls ++ [v.buffer]) (hstored : t.data.stored = s.data.stored)
    (hv : v.call = s.data.calls.length) (hi : v.i = 0) (hp : writing t p = some v)
    (hne : ∀ q, q ≠ p → writing t q = writing s q) : InOrder t := by
  have hnone : s.data.storedBy v.call = [] := by
    rw [Pipe.storedBy, List.filter_eq_nil_iff]
    intro x hx
    obtain ⟨b, hb, -⟩ := ho.bytes x hx
    have hlt := (List.getElem?_eq_some_iff.mp hb).1
    simp only [decide_eq_true_eq]
    omega
  refine ⟨hf, ?_, ?_, ?_, ?_⟩
  · intro q v' hv'
    rw [hcalls, Pipe.storedBy, hstored]
    by_cases hq : q = p
    · subst hq
      obtain rfl := Option.some.inj (hp.symm.trans hv')
      refine ⟨?_, ?_⟩
      · rw [hv]
        exact List.getElem?_concat_length
      · rw [← Pipe.storedBy, hnone, hi]
        rfl
    · rw [hne q hq] at hv'
      obtain ⟨hc, hr⟩ := ho.current q v' hv'
      exact ⟨by rw [List.getElem?_append_left (ho.call_lt hv'), hc], hr⟩
  · intro q q' v₁ v₂ hqq h₁ h₂
    by_cases hq : q = p
    · subst hq
      obtain rfl := Option.some.inj (hp.symm.trans h₁)
      rw [hne q' (Ne.symm hqq)] at h₂
      have := ho.call_lt h₂
      omega
    · rw [hne q hq] at h₁
      by_cases hq' : q' = p
      · subst hq'
        obtain rfl := Option.some.inj (hp.symm.trans h₂)
        have := ho.call_lt h₁
        omega
      · rw [hne q' hq'] at h₂
        exact ho.distinct q q' v₁ v₂ hqq h₁ h₂
  · intro k
    rw [Pipe.storedBy, hstored]
    exact ho.order k
  · intro x hx
    rw [hstored] at hx
    obtain ⟨b, hb, hbx⟩ := ho.bytes x hx
    refine ⟨b, ?_, hbx⟩
    rw [hcalls, List.getElem?_append_left (List.getElem?_eq_some_iff.mp hb).1, hb]

theorem storedBy_put (d : Pipe) (call index k : Nat) (ch : UInt8) :
    ((d.put call index ch).storedBy k).map Stored.index =
      (d.storedBy k).map Stored.index ++ if call = k then [index] else [] := by
  simp only [Pipe.storedBy, Pipe.put]
  by_cases h : call = k <;> simp [h]

theorem store {v v' : Write} {ch : UInt8} (ho : InOrder s)
    (hd : t.data = s.data.put v.call v.i ch) (hf : Fifo t.data) (hv : writing s p = some v)
    (hch : v.buffer v.i = some ch) (hp : writing t p = some v') (hcall : v'.call = v.call)
    (hbuf : v'.buffer = v.buffer) (hi : v'.i = v.i + 1)
    (hne : ∀ q, q ≠ p → writing t q = writing s q) : InOrder t := by
  obtain ⟨hc, hr⟩ := ho.current p v hv
  have hown : ((s.data.put v.call v.i ch).storedBy v.call).map Stored.index =
      List.range (v.i + 1) := by
    rw [storedBy_put, if_pos rfl, hr, List.range_succ]
  have hother : ∀ k, k ≠ v.call → ((s.data.put v.call v.i ch).storedBy k).map Stored.index =
      (s.data.storedBy k).map Stored.index := by
    intro k hk
    rw [storedBy_put, if_neg (Ne.symm hk), List.append_nil]
  refine ⟨hf, ?_, ?_, ?_, ?_⟩
  · intro q u hu
    rw [hd]
    by_cases hq : q = p
    · subst hq
      obtain rfl := Option.some.inj (hp.symm.trans hu)
      rw [hcall, hbuf, hi]
      exact ⟨hc, hown⟩
    · rw [hne q hq] at hu
      rw [hother _ (ho.distinct q p u v hq hu hv)]
      exact ho.current q u hu
  · intro q q' v₁ v₂ hqq h₁ h₂
    by_cases hq : q = p
    · subst hq
      obtain rfl := Option.some.inj (hp.symm.trans h₁)
      rw [hne q' (Ne.symm hqq)] at h₂
      rw [hcall]
      exact ho.distinct q q' v v₂ hqq hv h₂
    · rw [hne q hq] at h₁
      by_cases hq' : q' = p
      · subst hq'
        obtain rfl := Option.some.inj (hp.symm.trans h₂)
        rw [hcall]
        exact ho.distinct q q' v₁ v hqq h₁ hv
      · rw [hne q' hq'] at h₂
        exact ho.distinct q q' v₁ v₂ hqq h₁ h₂
  · intro k
    rw [hd]
    by_cases hk : k = v.call
    · subst hk
      exact ⟨_, hown⟩
    · rw [hother k hk]
      exact ho.order k
  · intro x hx
    rw [hd] at hx ⊢
    rcases List.mem_append.mp hx with hx | hx
    · exact ho.bytes x hx
    · obtain rfl := List.mem_singleton.mp hx
      exact ⟨v.buffer, hc, hch⟩

theorem next {a : Label} (ho : InOrder s) (h : next s a = some t) : InOrder t := by
  rcases (step_of_next h).goes with ⟨hd, hat⟩ | ⟨p, l, hs, hg, hne, -⟩
  · have hw : ∀ q, writing t q = writing s q := fun q => by rw [writing, hat q, writing]
    refine ho.keep (p := 0) (by rw [hd]; exact ho.fifo) (by rw [hd]) (by rw [hd]) ?_ fun q _ => hw q
    intro v' hv'
    exact ⟨v', hw 0 ▸ hv', rfl, rfl, rfl⟩
  · have hw : ∀ q, q ≠ p → writing t q = writing s q := fun q hq => by
      rw [writing, hne q hq, writing]
    have hl : writing s p = l.writing := by rw [writing, hs, Status.at]
    obtain ⟨hf, hst⟩ := goes_stores ho.fifo hg
    generalize hm : (t.status p).at = m at hst
    have hp : writing t p = m.writing := by rw [writing, hm]
    generalize hd : t.data = d at hst
    cases hst with
    | keep hc hstored hback =>
      subst hd
      refine ho.keep hf hc hstored ?_ hw
      rw [hp, hl]
      exact hback
    | begin hc hstored hv hi =>
      subst hd
      exact ho.begin hf hc hstored hv hi hp hw
    | store hv hch hcall hbuf hi => exact ho.store hd hf (hl.trans hv) hch hp hcall hbuf hi hw

end InOrder

theorem inOrder {junk : Fin PIPESIZE → UInt8} {tr : List (Event State Label)} {s : State}
    (hp : Path next (init junk) tr s) : InOrder s :=
  hp.invariant (fun _ _ _ ho h _ => ho.next h) (.init junk)
    fun _ _ => trivial

/-- The bytes removed are a prefix of those stored, the rest is what is in the ring, at most
PIPESIZE bytes, and the bytes that a call has stored are the first ones of its buffer. -/
theorem pipe_fifo {junk : Fin PIPESIZE → UInt8} {tr : List (Event State Label)} {s : State}
    (hp : Path next (init junk) tr s) :
    s.data.stored.map Stored.byte = s.data.removed ++ s.data.ring ∧
    s.data.ring.length = (s.data.nwrite - s.data.nread).toNat ∧
    (s.data.nwrite - s.data.nread).toNat ≤ PIPESIZE ∧
    ∀ k buffer, s.data.calls[k]? = some buffer → ∃ m,
      (s.data.storedBy k).map (some ∘ Stored.byte) = (List.range m).map buffer := by
  have ho := inOrder hp
  refine ⟨ho.fifo.split, by simp [Pipe.ring], ?_, ?_⟩
  · rw [ho.fifo.used]
    have := ho.fifo.room
    omega
  · intro k buffer hk
    obtain ⟨m, hm⟩ := ho.order k
    refine ⟨m, ?_⟩
    rw [← hm, List.map_map]
    refine List.map_congr_left fun x hx => ?_
    obtain ⟨hx, hxk⟩ := List.mem_filter.mp hx
    obtain ⟨b, hb, hbx⟩ := ho.bytes x hx
    simp only [decide_eq_true_eq] at hxk
    rw [hxk, hk] at hb
    cases hb
    exact hbx.symm

/-- A call of pipewrite with two bytes, and a call of piperead up to its first byte. -/
def twoBytes : List Label :=
  .call 0 (.pipewrite (fun i => some (7 + UInt8.ofNat i)) 2) :: List.replicate 76 (.step 0) ++
    [.call 1 (.piperead ⟨2, fun _ => true⟩), .step 1, .step 1, .step 1]

set_option maxRecDepth 8192 in
theorem pipe_fifo_twoBytes :
    let s := final next (init fun _ => 5) twoBytes
    s.data.stored.map Stored.byte = s.data.removed ++ s.data.ring ∧ s.data.removed = [7] ∧
      s.data.ring = [8] := by
  intro s
  have hp : Path next (init fun _ => 5) _ s := path_final (by decide +kernel)
  exact ⟨(pipe_fifo hp).1, by decide +kernel, by decide +kernel⟩

end Xv6.Pipes
