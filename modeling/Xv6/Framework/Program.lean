import Mathlib.Logic.Basic

namespace Xv6.Framework

/-- Programs over atomic operations: a program is done, or performs an operation and goes on with
its reply. -/
inductive Prog (Op : Type) (Reply : Op → Type) (α : Type) : Type
  | pure (a : α)
  | op (o : Op) (k : Reply o → Prog Op Reply α)

variable {Op α β γ σ ε : Type} {Reply : Op → Type}

namespace Prog

def bind : Prog Op Reply α → (α → Prog Op Reply β) → Prog Op Reply β
  | .pure a, f => f a
  | .op o k, f => .op o fun r => (k r).bind f

instance : Monad (Prog Op Reply) where
  pure := .pure
  bind := .bind

def perform (o : Op) : Prog Op Reply (Reply o) := .op o .pure

/-- Runs a program from start to end, with nothing else in between. -/
def run (step : (o : Op) → σ → Except ε (Reply o × σ)) : Prog Op Reply α → σ → Except ε (α × σ)
  | .pure a, s => .ok (a, s)
  | .op o k, s => match step o s with
    | .ok (r, t) => (k r).run step t
    | .error e => .error e

end Prog

/-- What a party may do, in terms of a ghost state: for each operation, the replies and ghost
states with which the rest of the party's program has to cope. -/
structure Discipline (Op : Type) (Reply : Op → Type) (γ : Type) where
  allows : (o : Op) → γ → (Reply o → γ → Prop) → Prop
  mono : ∀ {o g} {K K' : Reply o → γ → Prop},
    allows o g K → (∀ r g', K r g' → K' r g') → allows o g K'

/-- The program keeps to the discipline and ends as `Q` says. -/
def Prog.Follows (D : Discipline Op Reply γ) : Prog Op Reply α → γ → (α → γ → Prop) → Prop
  | .pure a, g, Q => Q a g
  | .op o k, g, Q => D.allows o g fun r g' => (k r).Follows D g' Q

namespace Follows

variable {D : Discipline Op Reply γ} {m : Prog Op Reply α} {f : α → Prog Op Reply β} {g : γ}
  {a : α} {P Q : α → γ → Prop} {R : β → γ → Prop}

theorem bind (hm : m.Follows D g P) (hf : ∀ a g', P a g' → (f a).Follows D g' R) :
    (m >>= f).Follows D g R := by
  induction m generalizing g with
  | pure a => exact hf a g hm
  | op o k ih => exact D.mono hm fun r g' hk => ih r hk

theorem seq (hm : m.Follows D g fun a g' => (f a).Follows D g' R) : (m >>= f).Follows D g R :=
  bind hm fun _ _ h => h

end Follows

/-- A result is as `Q` says, or an error that `E` admits. -/
def Outcome (E : ε → Prop) (Q : α → σ → Prop) : Except ε (α × σ) → Prop
  | .ok (a, t) => Q a t
  | .error e => E e

end Xv6.Framework
