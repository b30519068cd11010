import Mathlib.Logic.Function.Basic
import Mathlib.Data.List.Nodup

namespace Xv6.Trap

open Function (update update_self update_of_ne)

inductive Reg
  | ra | sp | gp | tp | t0 | t1 | t2 | s0 | s1 | a0 | a1 | a2 | a3 | a4 | a5 | a6 | a7
  | s2 | s3 | s4 | s5 | s6 | s7 | s8 | s9 | s10 | s11 | t3 | t4 | t5 | t6
  deriving DecidableEq

abbrev Word := BitVec 64

inductive Csr
  | sscratch
  | satp
  deriving DecidableEq

/-- What the code of trampoline.S and swtch.S can see. The memory is by doublewords;
that of trampoline.S is what the page table of the process maps. -/
structure Hart where
  reg : Reg → Word
  csr : Csr → Word
  mem : Word → Word

inductive Instr
  | sd (r : Reg) (off : Word) (b : Reg)
  | ld (r : Reg) (off : Word) (b : Reg)
  | li (r : Reg) (v : Word)
  | csrw (c : Csr) (r : Reg)
  | csrr (r : Reg) (c : Csr)

def Hart.exec (h : Hart) : Instr → Hart
  | .sd r off b => { h with mem := update h.mem (h.reg b + off) (h.reg r) }
  | .ld r off b => { h with reg := update h.reg r (h.mem (h.reg b + off)) }
  | .li r v => { h with reg := update h.reg r v }
  | .csrw c r => { h with csr := update h.csr c (h.reg r) }
  | .csrr r c => { h with reg := update h.reg r (h.csr c) }

def Hart.run (h : Hart) (is : List Instr) : Hart := is.foldl Hart.exec h

/-- Registers with the offsets they are saved at. -/
abbrev Slots := List (Reg × Word)

def saves (b : Reg) (t : Slots) : List Instr := t.map fun x => .sd x.1 x.2 b

def loads (b : Reg) (t : Slots) : List Instr := t.map fun x => .ld x.1 x.2 b

def TRAPFRAME : Word := 0x3fffffe000

/-- The registers of struct trapframe but a0. -/
def trapframe : Slots :=
  [(.ra, 40), (.sp, 48), (.gp, 56), (.tp, 64), (.t0, 72), (.t1, 80), (.t2, 88), (.s0, 96), (.s1, 104),
    (.a1, 120), (.a2, 128), (.a3, 136), (.a4, 144), (.a5, 152), (.a6, 160), (.a7, 168), (.s2, 176),
    (.s3, 184), (.s4, 192), (.s5, 200), (.s6, 208), (.s7, 216), (.s8, 224), (.s9, 232), (.s10, 240),
    (.s11, 248), (.t3, 256), (.t4, 264), (.t5, 272), (.t6, 280)]

def slot (r : Reg) : Word := (trapframe.lookup r).getD 112

/-- The end of uservec, with a0 and what the kernel needs. -/
def toKernel : List Instr :=
  [.csrr .t0 .sscratch, .sd .t0 112 .a0, .ld .sp 8 .a0, .ld .tp 32 .a0, .ld .t0 16 .a0, .ld .t1 0 .a0,
    .csrw .satp .t1]

def uservec : List Instr :=
  [.csrw .sscratch .a0, .li .a0 TRAPFRAME] ++ saves .a0 trapframe ++ toKernel

def userret : List Instr :=
  [.csrw .satp .a0, .li .a0 TRAPFRAME] ++ loads .a0 trapframe ++ [.ld .a0 112 .a0]

/-- struct context. -/
def context : Slots :=
  [(.ra, 0), (.sp, 8), (.s0, 16), (.s1, 24), (.s2, 32), (.s3, 40), (.s4, 48), (.s5, 56), (.s6, 64),
    (.s7, 72), (.s8, 80), (.s9, 88), (.s10, 96), (.s11, 104)]

def swtch : List Instr := saves .a0 context ++ loads .a1 context

variable {h k : Hart} {b : Reg} {t : Slots}

theorem run_append (is js : List Instr) : h.run (is ++ js) = (h.run is).run js :=
  List.foldl_append

theorem run_saves (ht : (t.map Prod.snd).Nodup) : (h.run (saves b t)).reg = h.reg ∧
    (h.run (saves b t)).csr = h.csr ∧
    (∀ x ∈ t, (h.run (saves b t)).mem (h.reg b + x.2) = h.reg x.1) ∧
    ∀ a, (∀ x ∈ t, a ≠ h.reg b + x.2) → (h.run (saves b t)).mem a = h.mem a := by
  induction t generalizing h with
  | nil => exact ⟨rfl, rfl, fun x hx => (nomatch hx), fun _ _ => rfl⟩
  | cons y t ih =>
    obtain ⟨hy, ht⟩ := List.nodup_cons.mp ht
    obtain ⟨h1, h0, h2, h3⟩ := ih (h := h.exec (.sd y.1 y.2 b)) ht
    refine ⟨h1, h0, fun x hx => ?_, fun a ha => ?_⟩
    · rcases List.mem_cons.mp hx with rfl | hx
      · refine (h3 _ fun z hz he => hy ?_).trans (update_self _ _ _)
        rw [(BitVec.add_right_inj _).mp he]
        exact List.mem_map_of_mem hz
      · exact h2 x hx
    · exact (h3 a fun x hx => ha x (List.mem_cons_of_mem y hx)).trans
        (update_of_ne (ha y List.mem_cons_self) _ _)

theorem run_loads (ht : (b :: t.map Prod.fst).Nodup) : (h.run (loads b t)).mem = h.mem ∧
    (∀ x ∈ t, (h.run (loads b t)).reg x.1 = h.mem (h.reg b + x.2)) ∧
    ∀ r, r ∉ t.map Prod.fst → (h.run (loads b t)).reg r = h.reg r := by
  induction t generalizing h with
  | nil => exact ⟨rfl, fun x hx => (nomatch hx), fun _ _ => rfl⟩
  | cons y t ih =>
    simp only [List.map_cons, List.nodup_cons, List.mem_cons, not_or] at ht
    obtain ⟨⟨hby, hb⟩, hy, ht⟩ := ht
    obtain ⟨h1, h2, h3⟩ := ih (h := h.exec (.ld y.1 y.2 b)) (List.nodup_cons.mpr ⟨hb, ht⟩)
    rw [show (h.exec (.ld y.1 y.2 b)).reg b = h.reg b from update_of_ne hby _ _] at h2
    refine ⟨h1, fun x hx => ?_, fun r hr => ?_⟩
    · rcases List.mem_cons.mp hx with rfl | hx
      · exact (h3 _ hy).trans (update_self _ _ _)
      · exact h2 x hx
    · obtain ⟨hne, hr⟩ := not_or.mp (mt List.mem_cons.mpr hr)
      exact (h3 r hr).trans (update_of_ne hne _ _)

theorem toKernel_mem (h : Hart) :
    (h.run toKernel).mem = update h.mem (h.reg .a0 + 112) (h.csr .sscratch) := rfl

/-- From a trap to the return, each register of the process is its own word of the trapframe. -/
theorem user_registers (h k : Hart) (r : Reg)
    (hk : k.mem (TRAPFRAME + slot r) = (h.run uservec).mem (TRAPFRAME + slot r)) :
    (k.run userret).reg r = h.reg r := by
  obtain ⟨s1, s2, s3, -⟩ := run_saves (h := h.run [.csrw .sscratch .a0, .li .a0 TRAPFRAME])
    (b := .a0) (t := trapframe) (by decide)
  obtain ⟨l1, l2, l3⟩ := run_loads (h := k.run [.csrw .satp .a0, .li .a0 TRAPFRAME])
    (b := .a0) (t := trapframe) (by decide)
  rw [uservec, run_append, run_append] at hk
  rw [userret, run_append, run_append]
  rw [toKernel_mem, s1, s2] at hk
  -- a0 is loaded last
  change update (Hart.reg _) .a0 (Hart.mem _ (Hart.reg _ .a0 + 112)) r = _
  rw [l1, l3 .a0 (by decide)]
  by_cases hr : r = .a0
  · subst hr
    exact (update_self _ _ _).trans (hk.trans (update_self _ _ _))
  · obtain ⟨hx, hne⟩ : (r, slot r) ∈ trapframe ∧ TRAPFRAME + slot r ≠ TRAPFRAME + 112 := by
      revert hr
      cases r <;> decide
    rw [update_of_ne hr, l2 _ hx]
    exact hk.trans ((update_of_ne hne _ _).trans ((s3 _ hx).trans (update_of_ne hr _ _)))

/-- Each register with its number, but for the arguments. -/
def numbered (a0 a1 : Word) : Hart :=
  ⟨update (update (fun r => r.ctorIdx) .a0 a0) .a1 a1, fun _ => 0, fun _ => 0⟩

theorem user_registers_kept : (((numbered 7 9).run uservec).run userret).reg .a0 = 7 :=
  user_registers (numbered 7 9) ((numbered 7 9).run uservec) .a0 rfl

/-- Whoever is switched away from gets its registers back with the next switch to its context, if
nobody has written there in between. -/
theorem swtch_back (x : Reg × Word) (hx : x ∈ context) (ha : k.reg .a1 = h.reg .a0)
    (hk : k.mem (h.reg .a0 + x.2) = (h.run swtch).mem (h.reg .a0 + x.2))
    (hne : ∀ y ∈ context, h.reg .a0 + x.2 ≠ k.reg .a0 + y.2) : (k.run swtch).reg x.1 = h.reg x.1 := by
  have hs : (context.map Prod.snd).Nodup := by decide
  have hl : (.a1 :: context.map Prod.fst).Nodup := by decide
  rw [swtch, run_append, (run_loads hl).1, (run_saves hs).2.2.1 x hx] at hk
  rw [swtch, run_append, (run_loads hl).2.1 x hx, (run_saves hs).1, ha, (run_saves hs).2.2.2 _ hne, hk]

theorem swtch_back_s3 : (Hart.run ⟨(numbered 8192 4096).reg, fun _ => 0,
    ((numbered 4096 8192).run swtch).mem⟩ swtch).reg .s3 = (numbered 4096 8192).reg .s3 := by
  apply swtch_back (.s3, 40)
  · decide
  · rfl
  · with_reducible rfl
  · decide

end Xv6.Trap
