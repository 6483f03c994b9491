import Mathlib.Data.List.Infix

/-!
Finite runs of a partial step function, which stop at an event that is not enabled or that aborts,
and of machines that answer every event.
-/
namespace Transition

variable {σ ε : Type*} (step : σ → ε → Option σ)

/-- The state after a whole list of events. -/
def exec : σ → List ε → Option σ
  | s, [] => some s
  | s, e::es => (step s e).bind fun t => exec t es

/-- `P` holds in every state that the run visits, the first one included. -/
def Always (P : σ → Prop) : σ → List ε → Prop
  | s, [] => P s
  | s, e::es => P s ∧ ∀ t, step s e = some t → Always P t es

/-- `Q` relates the states around every event that the run performs. -/
def EachStep (Q : σ → ε → σ → Prop) : σ → List ε → Prop
  | _, [] => True
  | s, e::es => ∀ t, step s e = some t → Q s e t ∧ EachStep Q t es

section
variable {step}

instance Always.decidable {P : σ → Prop} [DecidablePred P] (s : σ) :
    ∀ es : List ε, Decidable (Always step P s es)
  | [] => inferInstanceAs (Decidable (P s))
  | e::es =>
    match h : step s e with
    | none => decidable_of_iff (P s) (by simp [Always,h])
    | some t =>
      haveI := Always.decidable (P := P) t es
      decidable_of_iff (P s ∧ Always step P t es) (by simp [Always,h])

instance EachStep.decidable {Q : σ → ε → σ → Prop} [∀ s e t, Decidable (Q s e t)] (s : σ) :
    ∀ es : List ε, Decidable (EachStep step Q s es)
  | [] => isTrue trivial
  | e::es =>
    match h : step s e with
    | none => isTrue (by simp [EachStep,h])
    | some t =>
      haveI := EachStep.decidable (Q := Q) t es
      decidable_of_iff (Q s e t ∧ EachStep step Q t es) (by simp [EachStep,h])

end

variable {step} {P R J : σ → Prop} {Q C : σ → ε → σ → Prop} {s t u : σ} {e : ε} {es fs : List ε}

theorem exec_trans (h : exec step s es = some t) (k : exec step t fs = some u) :
    exec step s (es ++ fs) = some u := by
  induction es generalizing s with
  | nil =>
    cases h
    exact k
  | cons e es ih =>
    obtain ⟨s',hs,h⟩ := Option.bind_eq_some_iff.mp h
    exact Option.bind_eq_some_iff.mpr ⟨s',hs,ih h⟩

theorem exec_cons (h : step s e = some t) (k : exec step t es = some u) :
    exec step s (e::es) = some u := by
  rw [exec,h,Option.bind_some,k]

theorem Always.head (h : Always step P s es) : P s := by
  cases es with
  | nil => exact h
  | cons e es => exact h.1

theorem Always.last (h : Always step P s es) (he : exec step s es = some t) : P t := by
  induction es generalizing s with
  | nil =>
    cases he
    exact h
  | cons e es ih =>
    obtain ⟨u,hu,hrest⟩ := Option.bind_eq_some_iff.mp he
    exact ih (h.2 u hu) hrest

theorem Always.mono (hPR : ∀ s, P s → R s) (h : Always step P s es) : Always step R s es := by
  induction es generalizing s with
  | nil => exact hPR s h
  | cons e es ih => exact ⟨hPR s h.1,fun t ht => ih (h.2 t ht)⟩

theorem Always.and (h : Always step P s es) (k : Always step R s es) :
    Always step (fun s => P s ∧ R s) s es := by
  induction es generalizing s with
  | nil => exact ⟨h,k⟩
  | cons e es ih => exact ⟨⟨h.1,k.1⟩,fun t ht => ih (h.2 t ht) (k.2 t ht)⟩

/-- The invariant rule: what holds at the start and survives every event that meets `C` holds in
every state of a run whose events all meet `C`. -/
theorem EachStep.always (hstep : ∀ s e t, P s → C s e t → step s e = some t → P t) (hs : P s)
    (h : EachStep step C s es) : Always step P s es := by
  induction es generalizing s with
  | nil => exact hs
  | cons e es ih =>
    exact ⟨hs,fun t ht => ih (hstep s e t hs (h t ht).1 ht) (h t ht).2⟩

/-- An invariant that no event can break needs no condition on the run. -/
theorem always_of_step (hstep : ∀ s e t, P s → step s e = some t → P t) (hs : P s) (es : List ε) :
    Always step P s es := by
  induction es generalizing s with
  | nil => exact hs
  | cons e es ih => exact ⟨hs,fun t ht => ih (hstep s e t hs ht)⟩

/-- The progress rule: an invariant from which every event has a successor. -/
theorem exec_of_step (hstep : ∀ s e, J s → ∃ t, step s e = some t ∧ J t) (hs : J s) (es : List ε) :
    ∃ t, exec step s es = some t ∧ J t := by
  induction es generalizing s with
  | nil => exact ⟨s,rfl,hs⟩
  | cons e es ih =>
    obtain ⟨t,ht,hj⟩ := hstep s e hs
    obtain ⟨u,hu,hju⟩ := ih hj
    exact ⟨u,exec_cons ht hu,hju⟩

/-- A step property that follows from an invariant and from what the events meet holds
at every event of the run. -/
theorem Always.eachStep (hstep : ∀ s e t, P s → C s e t → step s e = some t → Q s e t)
    (h : Always step P s es) (hc : EachStep step C s es) : EachStep step Q s es := by
  induction es generalizing s with
  | nil => trivial
  | cons e es ih =>
    exact fun t ht => ⟨hstep s e t h.1 (hc t ht).1 ht,ih (h.2 t ht) (hc t ht).2⟩

theorem eachStep_of_step (hstep : ∀ s e t, J s → step s e = some t → J t ∧ Q s e t) (hs : J s)
    (es : List ε) : EachStep step Q s es := by
  induction es generalizing s with
  | nil => trivial
  | cons e es ih =>
    intro t ht
    obtain ⟨hj,hq⟩ := hstep s e t hs ht
    exact ⟨hq,ih hj⟩

/-- The exactness rule: when, from a good state, an event leads to a good state precisely if it
meets `C`, the good runs are those whose events all meet `C`. `J` carries facts that always hold. -/
theorem always_iff_eachStep (hJ : ∀ s e t, J s → step s e = some t → J t)
    (hstep : ∀ s e t, J s → P s → step s e = some t → (P t ↔ C s e t)) (hj : J s) (hs : P s)
    (es : List ε) :
    Always step P s es ↔ EachStep step C s es := by
  induction es generalizing s with
  | nil => exact ⟨fun _ => trivial,fun _ => hs⟩
  | cons e es ih =>
    constructor
    · intro h t ht
      have hP : P t := (h.2 t ht).head
      exact ⟨(hstep s e t hj hs ht).mp hP,(ih (hJ s e t hj ht) hP).mp (h.2 t ht)⟩
    · intro h
      refine ⟨hs,fun t ht => ?_⟩
      have hP : P t := (hstep s e t hj hs ht).mpr (h t ht).1
      exact (ih (hJ s e t hj ht) hP).mpr (h t ht).2

section
variable {ω : Type*} (react : σ → ε → σ × ω)

/-- A machine that reacts to every event with an answer: the state after a list of events, and the
answers in order. -/
def answers : σ → List ε → σ × List ω
  | s, [] => (s,[])
  | s, e::es =>
    let r := react s e
    let rest := answers r.1 es
    (rest.1,r.2::rest.2)

theorem answers_concat (s : σ) (es : List ε) (e : ε) :
    answers react s (es ++ [e]) = ((react (answers react s es).1 e).1,
      (answers react s es).2 ++ [(react (answers react s es).1 e).2]) := by
  induction es generalizing s with
  | nil => rfl
  | cons d es ih => simp [answers,ih]

/-- What every reaction leaves as it is, a whole run does. -/
theorem answers_unchanged {α : Type*} {f : σ → α} (h : ∀ s e, f (react s e).1 = f s) (s : σ)
    (es : List ε) : f (answers react s es).1 = f s := by
  induction es generalizing s with
  | nil => rfl
  | cons e es ih => exact (ih (react s e).1).trans (h s e)

end

end Transition
