import Mathlib.Data.List.Basic

/-!
A loop that takes messages from an inbox until an answer is there or the time is over. A poll before
the deadline is a message, nothing, or the end of the channel.
-/
namespace Await

open List

inductive Poll (μ : Type*) where
  | message (m : μ)
  | timeout
  | disconnected

variable {σ μ : Type*} (dispatch : σ → μ → σ) (done : σ → Bool)

/-- The state in which the loop ends, and whether the channel was found closed. -/
def await : σ → List (Poll μ) → σ × Bool
  | s, [] => (s,false)
  | s, poll::polls =>
    if done s then (s,false)
    else
      match poll with
      | .message m => await (dispatch s m) polls
      | .timeout => await s polls
      | .disconnected => (s,true)

variable {dispatch done} {s : σ} {polls : List (Poll μ)}

theorem await_of_done (h : done s = true) : await dispatch done s polls = (s,false) := by
  cases polls with
  | nil => rfl
  | cons poll polls => simp only [await,h,if_true]

section
variable {J : σ → Prop}
  (hstep : ∀ s m, .message m ∈ polls → J s → done s = false → J (dispatch s m)) (h : J s)
include hstep h

/-- What every message preserves as long as there is no answer is preserved by the loop. -/
theorem await_invariant : J (await dispatch done s polls).1 := by
  induction polls generalizing s with
  | nil => exact h
  | cons poll polls ih =>
    unfold await
    split
    · exact h
    · next hdone =>
      have hrest {s : σ} (hs : J s) : J (await dispatch done s polls).1 :=
        ih (fun s m hm => hstep s m (mem_cons_of_mem _ hm)) hs
      cases poll with
      | message m => exact hrest (hstep s m mem_cons_self h (by simpa using hdone))
      | timeout => exact hrest h
      | disconnected => exact h

/-- An answer comes with a message, from a state without one; the loop ends with it. -/
theorem exists_message_of_done (hstart : done s = false)
    (hend : done (await dispatch done s polls).1 = true) :
    ∃ t m, .message m ∈ polls ∧ J t ∧ done t = false ∧
      (await dispatch done s polls).1 = dispatch t m := by
  induction polls generalizing s with
  | nil =>
    rw [await,hstart] at hend
    cases hend
  | cons poll polls ih =>
    have hmore {s : σ} (hs : J s) (hstart : done s = false)
        (hend : done (await dispatch done s polls).1 = true) :
        ∃ t m, .message m ∈ poll::polls ∧ J t ∧ done t = false ∧
          (await dispatch done s polls).1 = dispatch t m := by
      obtain ⟨t,m,hm,hrest⟩ := ih (fun s m hm => hstep s m (mem_cons_of_mem _ hm)) hs hstart hend
      exact ⟨t,m,mem_cons_of_mem _ hm,hrest⟩
    simp only [await,hstart,Bool.false_eq_true,if_false] at hend ⊢
    cases poll with
    | message m =>
      dsimp only at hend ⊢
      cases hm : done (dispatch s m) with
      | true =>
        exact ⟨s,m,mem_cons_self,h,hstart,by rw [await_of_done hm]⟩
      | false => exact hmore (hstep s m mem_cons_self h hstart) hm hend
    | timeout => exact hmore h hstart hend
    | disconnected =>
      rw [hstart] at hend
      cases hend

end

section
variable (decides : μ → Bool)

/-- The first message that decides, with the messages before it. -/
def decision : List (Poll μ) → Option (List μ × μ)
  | [] => none
  | .message m::polls =>
    if decides m then some ([],m) else (decision polls).map fun r => (m::r.1,r.2)
  | .timeout::polls => decision polls
  | .disconnected::_ => none

variable {decides} {J : σ → Prop}

theorem invariant_foldl (hstep : ∀ s m, J s → decides m = false → J (dispatch s m)) (h : J s)
    {before : List μ} {m : μ} (hbefore : decision decides polls = some (before,m)) :
    J (before.foldl dispatch s) := by
  fun_induction decision decides polls generalizing s before with
  | case1 | case5 => cases hbefore
  | case2 =>
    cases hbefore
    exact h
  | case3 k polls hk ih =>
    obtain ⟨r,hr,hpair⟩ := Option.map_eq_some_iff.mp hbefore
    cases hpair
    exact ih (hstep s k h (by simpa using hk)) hr
  | case4 polls ih => exact ih h hbefore

theorem decides_of_decision {r : List μ × μ} (h : decision decides polls = some r) :
    decides r.2 = true := by
  fun_induction decision decides polls generalizing r with
  | case1 | case5 => cases h
  | case2 k polls hk =>
    cases h
    exact hk
  | case3 k polls hk ih =>
    obtain ⟨q,hq,rfl⟩ := Option.map_eq_some_iff.mp h
    exact (ih hq : decides q.2 = true)
  | case4 polls ih => exact ih h

/-- The loop ends with the deciding message, if that one brings the answer. -/
theorem await_of_decision (done : σ → Bool)
    (hstep : ∀ s m, J s → decides m = false → J (dispatch s m))
    (hwait : ∀ s, J s → done s = false) (h : J s) {before : List μ} {m : μ}
    (hdecision : decision decides polls = some (before,m))
    (hanswer : done (dispatch (before.foldl dispatch s) m) = true) :
    await dispatch done s polls = (dispatch (before.foldl dispatch s) m,false) := by
  induction polls generalizing s before with
  | nil => cases hdecision
  | cons poll polls ih =>
    unfold decision at hdecision
    simp only [await,hwait s h,Bool.false_eq_true,if_false]
    cases poll with
    | message k =>
      dsimp only at hdecision ⊢
      split at hdecision
      · cases hdecision
        exact await_of_done hanswer
      · next hk =>
        obtain ⟨r,hr,hpair⟩ := Option.map_eq_some_iff.mp hdecision
        cases hpair
        exact ih (hstep s k h (by simpa using hk)) hr hanswer
    | timeout => exact ih h hdecision hanswer
    | disconnected => cases hdecision

/-- The messages before the channel is closed. -/
def delivered : List (Poll μ) → List μ
  | [] => []
  | .message m::polls => m::delivered polls
  | .timeout::polls => delivered polls
  | .disconnected::_ => []

/-- A loop without an answer takes every message. -/
theorem fst_await_eq_foldl {K : σ → Prop} (hdead : ∀ s m, K s → K (dispatch s m))
    (hnever : ∀ s, K s → done s = false) (h : K s) :
    (await dispatch done s polls).1 = (delivered polls).foldl dispatch s := by
  fun_induction delivered polls generalizing s with
  | case1 => rfl
  | case2 m polls ih =>
    simp only [await,hnever s h,Bool.false_eq_true,if_false,foldl_cons]
    exact ih (hdead s m h)
  | case3 polls ih =>
    simp only [await,hnever s h,Bool.false_eq_true,if_false]
    exact ih h
  | case4 =>
    simp only [await,hnever s h,Bool.false_eq_true,if_false]
    rfl

/-- There is no answer, and every message is taken, if the deciding message does not come, or if it
leads to states in which there is none to come. -/
theorem await_of_undecided (done : σ → Bool) {K : σ → Prop}
    (hstep : ∀ s m, J s → decides m = false → J (dispatch s m))
    (hwait : ∀ s, J s → done s = false) (hdead : ∀ s m, K s → K (dispatch s m))
    (hnever : ∀ s, K s → done s = false) (h : J s)
    (hlost : ∀ r, decision decides polls = some r → K (dispatch (r.1.foldl dispatch s) r.2)) :
    done (await dispatch done s polls).1 = false ∧
      (await dispatch done s polls).1 = (delivered polls).foldl dispatch s := by
  induction polls generalizing s with
  | nil => exact ⟨hwait s h,rfl⟩
  | cons poll polls ih =>
    simp only [await,hwait s h,Bool.false_eq_true,if_false]
    unfold decision at hlost
    cases poll with
    | message k =>
      dsimp only at hlost ⊢
      by_cases hk : decides k = true
      · rw [if_pos hk] at hlost
        have hlost := hlost _ rfl
        exact ⟨hnever _ (await_invariant (fun s m _ hs _ => hdead s m hs) hlost),
          fst_await_eq_foldl hdead hnever hlost⟩
      · rw [if_neg hk] at hlost
        refine ih (hstep s k h (by simpa using hk)) fun r hr => ?_
        exact hlost (k::r.1,r.2) (by rw [hr]; rfl)
    | timeout => exact ih h hlost
    | disconnected => exact ⟨hwait s h,rfl⟩

end
end Await
