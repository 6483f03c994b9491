import Mathlib.Logic.Basic

/-!
Sequencing of computations that may fail with an error.
-/
namespace Fallible

universe u v

variable {ε : Type u} {α β : Type v}

@[simp] theorem pure_eq_ok (a : α) : (pure a : Except ε α) = .ok a := rfl

@[simp] theorem ok_bind (a : α) (f : α → Except ε β) : (Except.ok a >>= f) = f a := rfl

@[simp] theorem error_bind (e : ε) (f : α → Except ε β) : (Except.error e >>= f) = .error e := rfl

theorem bind_eq_ok {x : Except ε α} {f : α → Except ε β} {b : β} :
    (x >>= f) = .ok b ↔ ∃ a, x = .ok a ∧ f a = .ok b := by
  cases x <;> simp

/-- What writing a file did: all of it, or it failed and left something in the file. -/
inductive WriteOutcome (α : Type) where
  | done
  | failed (error : String) (left : Option α)

end Fallible
