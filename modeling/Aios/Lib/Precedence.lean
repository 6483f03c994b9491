import Mathlib.Data.List.Induction

/-!
The order of the events of a finite trace. What an event needs is a predicate on the trace up to it,
and every rule here extends a trace at its end.
-/
namespace Precedence

open List
variable {ε : Type*} {P : List ε → ε → Prop} {opening breaking : ε → Prop} {trace : List ε} {e : ε}

/-- Every event of the trace meets `P` with the events before it. -/
def Justified (P : List ε → ε → Prop) (trace : List ε) : Prop :=
  ∀ before e after, trace = before ++ e::after → P before e

/-- There is an `opening` event in the trace, and after the last one no `breaking` event. -/
def QuietSince (opening breaking : ε → Prop) (trace : List ε) : Prop :=
  ∃ before e since, trace = before ++ e::since ∧ opening e ∧
    ∀ x ∈ since, ¬ opening x ∧ ¬ breaking x

theorem justified_nil : Justified P [] := by
  intro before e after h
  simp at h

theorem justified_concat : Justified P (trace ++ [e]) ↔ Justified P trace ∧ P trace e := by
  constructor
  · intro h
    refine ⟨fun before x after hx => h before x (after ++ [e]) ?_,h trace e [] rfl⟩
    simp [hx]
  · rintro ⟨h,he⟩ before x after hx
    rcases eq_nil_or_concat after with rfl | ⟨front,last,rfl⟩
    · obtain ⟨rfl,hlast⟩ := append_inj' hx rfl
      obtain rfl : e = x := by simpa using hlast
      exact he
    · have hsplit : trace ++ [e] = (before ++ x::front) ++ [last] := by simpa using hx
      obtain ⟨htrace,-⟩ := append_inj' hsplit rfl
      exact h before x front htrace

theorem quietSince_concat_of_opening (h : opening e) : QuietSince opening breaking (trace ++ [e]) :=
  ⟨trace,e,[],rfl,h,by simp⟩

theorem quietSince_concat (h : ¬ opening e) : QuietSince opening breaking (trace ++ [e]) ↔
      ¬ breaking e ∧ QuietSince opening breaking trace := by
  constructor
  · rintro ⟨before,x,since,htrace,hx,hsince⟩
    rcases eq_nil_or_concat since with rfl | ⟨front,last,rfl⟩
    · obtain ⟨-,hlast⟩ := append_inj' htrace rfl
      obtain rfl : e = x := by simpa using hlast
      exact absurd hx h
    · have hsplit : trace ++ [e] = (before ++ x::front) ++ [last] := by simpa using htrace
      obtain ⟨hfront,hlast⟩ := append_inj' hsplit rfl
      obtain rfl : e = last := by simpa using hlast
      refine ⟨(hsince e (by simp)).2,before,x,front,hfront,hx,fun y hy => hsince y ?_⟩
      simp [hy]
  · rintro ⟨he,before,x,since,rfl,hx,hsince⟩
    refine ⟨before,x,since ++ [e],by simp,hx,fun y hy => ?_⟩
    rcases mem_append.mp hy with hy | hy
    · exact hsince y hy
    · obtain rfl := mem_singleton.mp hy
      exact ⟨h,he⟩

end Precedence
