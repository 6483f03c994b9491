import Mathlib.Data.List.Basic

/-!
Computations on a state that may end in an error, and then keep what they have done; recursion is
given fuel. A specification says what is needed before, what holds with a value, what holds wherever
it ends without one, and whether fuel may run out.
-/
namespace Actions

inductive Result (ε α : Type) where
  | ok (a : α)
  | error (e : ε)
  | outOfFuel
  deriving DecidableEq

def Act (σ ε α : Type) := σ → Result ε α × σ

variable {σ ε α β : Type}

namespace Act

def bind (x : Act σ ε α) (f : α → Act σ ε β) : Act σ ε β := fun s =>
  match x s with
  | (.ok a,s') => f a s'
  | (.error e,s') => (.error e,s')
  | (.outOfFuel,s') => (.outOfFuel,s')

instance : Monad (Act σ ε) where
  pure a := fun s => (.ok a,s)
  bind := bind

def fail (e : ε) : Act σ ε α := fun s => (.error e,s)

def outOfFuel : Act σ ε α := fun s => (.outOfFuel,s)

def get : Act σ ε σ := fun s => (.ok s,s)

def modify (f : σ → σ) : Act σ ε Unit := fun s => (.ok (),f s)

/-- A value or an error that does not depend on the state. -/
def lift : Except ε α → Act σ ε α
  | .ok a => pure a
  | .error e => fail e

theorem bind_of_ok {x : Act σ ε α} {f : α → Act σ ε β} {a : α} {s s' : σ} (h : x s = (.ok a,s')) :
    (x >>= f) s = f a s' := by
  show bind x f s = f a s'
  unfold bind
  rw [h]

end Act

section
variable {P P' E E' : σ → Prop} {Q Q' : α → σ → Prop} {R : β → σ → Prop} {F : Prop} {x : Act σ ε α}
  {f : α → Act σ ε β} {r : Result ε α × σ}

/-- How a computation has ended: with a value, or without one in a state of which `E` holds. -/
def Ends (Q : α → σ → Prop) (E : σ → Prop) (F : Prop) : Result ε α × σ → Prop
  | (.ok a,s) => Q a s
  | (.error _,s) => E s
  | (.outOfFuel,s) => F ∧ E s

/-- From a state of which `P` holds the computation ends so; `F` says that it may run out of
fuel. -/
def Spec (P : σ → Prop) (x : Act σ ε α) (Q : α → σ → Prop) (E : σ → Prop) (F : Prop) : Prop :=
  ∀ s, P s → Ends Q E F (x s)

theorem Ends.mono (h : Ends Q E F r) (hQ : ∀ a s, Q a s → Q' a s) (hE : ∀ s, E s → E' s) :
    Ends Q' E' F r := by
  match r with
  | (.ok a,s) => exact hQ a s h
  | (.error e,s) => exact hE s h
  | (.outOfFuel,s) => exact ⟨h.1,hE s h.2⟩

/-- What holds however the computation has ended. -/
theorem Ends.state (h : Ends (fun _ => E) E F r) : E r.2 := by
  match r with
  | (.ok a,s) => exact h
  | (.error e,s) => exact h
  | (.outOfFuel,s) => exact h.2

theorem Ends.of_state (h : E r.2) : Ends (fun _ => E) E True r := by
  match r with
  | (.ok a,s) => exact h
  | (.error e,s) => exact h
  | (.outOfFuel,s) => exact ⟨trivial,h⟩

theorem Spec.mono (h : Spec P x Q E F) (hP : ∀ s, P' s → P s) (hQ : ∀ a s, Q a s → Q' a s) :
    Spec P' x Q' E F :=
  fun s hs => (h s (hP s hs)).mono hQ fun _ he => he

theorem Spec.bind (hx : Spec P x Q E F) (hf : ∀ a, Spec (Q a) (f a) R E F) :
    Spec P (x >>= f) R E F := by
  intro s hs
  have hends := hx s hs
  show Ends R E F (Act.bind x f s)
  unfold Act.bind
  match x s, hends with
  | (.ok a,s'), hends => exact hf a s' hends
  | (.error e,s'), hends => exact hends
  | (.outOfFuel,s'), hends => exact hends

theorem Spec.pure {a : α} (h : ∀ s, P s → Q a s) : Spec P (pure a : Act σ ε α) Q E F :=
  fun s hs => h s hs

theorem Spec.fail {e : ε} (h : ∀ s, P s → E s) : Spec P (Act.fail e : Act σ ε α) Q E F :=
  fun s hs => h s hs

theorem Spec.modify {g : σ → σ} {Q : Unit → σ → Prop} (h : ∀ s, P s → Q () (g s)) :
    Spec P (Act.modify g : Act σ ε Unit) Q E F :=
  fun s hs => h s hs

/-- A loop over a list keeps an invariant of the items that are still to come. -/
theorem Spec.foldlM {γ : Type} {g : α → γ → Act σ ε α} (I : List γ → σ → Prop)
    (hstep : ∀ item rest acc, Spec (I (item::rest)) (g acc item) (fun _ => I rest) E F)
    (items : List γ) (acc : α) : Spec (I items) (items.foldlM g acc) (fun _ => I []) E F := by
  induction items generalizing acc with
  | nil => exact .pure fun _ h => h
  | cons item rest ih => exact .bind (hstep item rest acc) ih

end
end Actions
