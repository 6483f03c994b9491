import Mathlib.Data.Nat.Init
import Mathlib.Logic.Basic

/-!
Loops as repeated rounds of a partial step, undefined where the loop has ended. A loop is compared
with the one that also ends wherever a round is not allowed.
-/
namespace CheckedLoop

variable {σ : Type*} (step : σ → Option σ) (allowed : σ → Prop) [DecidablePred allowed]

def rounds : ℕ → σ → Option σ
  | 0, s => some s
  | n+1, s => (rounds n s).bind step

/-- The state in which the loop ends, if it needs at most `n` rounds. -/
def settle : ℕ → σ → σ
  | 0, s => s
  | n+1, s =>
    match step s with
    | none => s
    | some t => settle n t

/-- The loop that ends at the first round that is not allowed. -/
def checked (s : σ) : Option σ := if allowed s then step s else none

variable {step allowed} {s t : σ} {n : ℕ}

theorem checked_le (h : checked step allowed s = some t) : step s = some t := by
  unfold checked at h
  split at h
  · exact h
  · cases h

theorem rounds_of_checked (h : rounds (checked step allowed) n s = some t) :
    rounds step n s = some t := by
  induction n generalizing t with
  | zero => exact h
  | succ n ih =>
    obtain ⟨u,hu,ht⟩ := Option.bind_eq_some_iff.mp h
    rw [rounds,ih hu,Option.bind_some,checked_le ht]

/-- A loop makes only allowed rounds precisely if the checked one never ends where the loop
itself would go on. -/
theorem allowed_iff_checked : (∀ n t, rounds step n s = some t → (step t).isSome → allowed t) ↔
      ∀ n t, rounds (checked step allowed) n s = some t → (step t).isSome → allowed t := by
  constructor
  · intro h n t ht
    exact h n t (rounds_of_checked ht)
  · intro h
    -- Every round of the loop is allowed, so it is a round of the checked loop as well.
    have hsame : ∀ n t, rounds step n s = some t → rounds (checked step allowed) n s = some t := by
      intro n
      induction n with
      | zero => exact fun t ht => ht
      | succ n ih =>
        intro t ht
        obtain ⟨u,hu,hstep⟩ := Option.bind_eq_some_iff.mp ht
        have hallowed : allowed u := h n u (ih u hu) (by rw [hstep]; rfl)
        rw [rounds,ih u hu,Option.bind_some,checked,if_pos hallowed,hstep]
    intro n t ht
    exact h n t (hsame n t ht)

/-- A loop whose rounds keep an invariant and decrease a measure has ended after as many rounds as
the measure was. -/
theorem settle_of_invariant {J : σ → Prop} {m : σ → ℕ}
    (hstep : ∀ s t, J s → step s = some t → J t ∧ m t < m s) (hs : J s)
    (h : m s ≤ n) : J (settle step n s) ∧ step (settle step n s) = none := by
  induction n generalizing s with
  | zero =>
    refine ⟨hs,?_⟩
    cases hnext : step s with
    | none => exact hnext
    | some t =>
      have hlt := (hstep s t hs hnext).2
      omega
  | succ n ih =>
    unfold settle
    split
    · next hnone => exact ⟨hs,hnone⟩
    · next t ht =>
      obtain ⟨hj,hlt⟩ := hstep s t hs ht
      exact ih hj (by omega)

theorem settle_invariant {J : σ → Prop} (hstep : ∀ s t, J s → step s = some t → J t) (hs : J s) :
    J (settle step n s) := by
  induction n generalizing s with
  | zero => exact hs
  | succ n ih =>
    unfold settle
    split
    · exact hs
    · next t ht => exact ih (hstep s t hs ht)

/-- What one round shows of two states alike, the loop does. -/
theorem settle_congr {τ : Type*} {f : σ → τ}
    (hstep : ∀ s t, f s = f t → (step s).map f = (step t).map f) (h : f s = f t) :
    f (settle step n s) = f (settle step n t) := by
  induction n generalizing s t with
  | zero => exact h
  | succ n ih =>
    have hnext := hstep s t h
    unfold settle
    cases hs : step s with
    | none =>
      rw [hs,Option.map_none] at hnext
      rw [Option.map_eq_none_iff.mp hnext.symm]
      exact h
    | some u =>
      rw [hs,Option.map_some] at hnext
      obtain ⟨v,ht,huv⟩ := Option.map_eq_some_iff.mp hnext.symm
      rw [ht]
      exact ih huv.symm

end CheckedLoop
