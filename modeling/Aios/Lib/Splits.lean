import Mathlib.Data.List.Basic

/-!
Splitting a text at its separators: the pieces hold none, and joining is undone. The words of a
prefix code need no separators.
-/
namespace Splits

open List
variable {α : Type*} {p : α → Bool}

theorem whole_of_mem_splitOnP {sep : α → Bool} {xs seg : List α}
    (h : seg ∈ xs.splitOnP sep) : ∀ c ∈ seg, sep c = false := by
  suffices hacc : ∀ acc, (∀ c ∈ acc, sep c = false) →
      ∀ seg ∈ splitOnPPrepend sep xs acc, ∀ c ∈ seg, sep c = false from
    hacc [] (by simp) seg (splitOnP_eq_splitOnPPrepend ▸ h)
  clear h
  induction xs with
  | nil => simp
  | cons x xs ih =>
    intro acc hacc
    rw [splitOnPPrepend_cons_eq_if,splitOnP_eq_splitOnPPrepend]
    split
    next => simpa using And.intro hacc (ih [] (by simp))
    next hx => exact ih _ (by simpa [hx] using hacc)

/-- Segments without separators are told apart again after they were joined. -/
theorem splitOnP_intercalate {x : α} (hx : p x = true)
    {segs : List (List α)} (h : ∀ seg ∈ segs, ∀ c ∈ seg, p c = false) (hne : segs ≠ []) :
    ([x].intercalate segs).splitOnP p = segs := by
  induction segs with
  | nil => exact absurd rfl hne
  | cons seg others ih =>
    have hseg := h seg mem_cons_self
    cases others with
    | nil => simpa [intercalate] using splitOnP_eq_singleton hseg
    | cons next others =>
      have hcons : [x].intercalate (seg::next::others) =
          seg ++ x::[x].intercalate (next::others) := by
        simp [intercalate]
      rw [hcons,splitOnP_append_cons_of_forall_mem hseg _ hx,
        ih (fun s hs => h s (mem_cons_of_mem _ hs)) (by simp)]

/-- Splitting sees of the separators only that they are some. -/
theorem splitOnP_map {f : α → α} (hsep : ∀ c, p c = true → p (f c) = true)
    (hkeep : ∀ c, p c = false → f c = c) (l : List α) :
    (l.map f).splitOnP p = l.splitOnP p := by
  induction l with
  | nil => rfl
  | cons c l ih =>
    rw [map_cons,splitOnP_cons_eq_if_modifyHead,splitOnP_cons_eq_if_modifyHead,ih]
    cases hc : p c with
    | true => simp [hsep c hc]
    | false => simp [hkeep c hc,hc]

theorem intercalate_append (x : α) {as bs : List (List α)} (ha : as ≠ []) (hb : bs ≠ []) :
    [x].intercalate (as ++ bs) = [x].intercalate as ++ x::[x].intercalate bs := by
  induction as with
  | nil => exact absurd rfl ha
  | cons a as ih =>
    cases as with
    | nil =>
      obtain ⟨b,bs,rfl⟩ := exists_cons_of_ne_nil hb
      simp
    | cons a' as => simpa using ih (by simp)

/-- Words of a code in which none is the start of another, one after the other. -/
theorem flatMap_injective {β : Type*} {code : β → List α} (hne : ∀ b, code b ≠ [])
    (hcode : ∀ b c, code b <+: code c → b = c) :
    Function.Injective fun bs : List β => bs.flatMap code := by
  intro bs
  induction bs with
  | nil =>
    intro cs h
    cases cs with
    | nil => rfl
    | cons c cs =>
      have hempty : code c = [] := (append_eq_nil_iff.mp h.symm).1
      exact absurd hempty (hne c)
  | cons b bs ih =>
    intro cs h
    cases cs with
    | nil =>
      have hempty : code b = [] := (append_eq_nil_iff.mp h).1
      exact absurd hempty (hne b)
    | cons c cs =>
      have hboth : code b ++ bs.flatMap code = code c ++ cs.flatMap code := h
      -- Both words start the same text, so that one of them starts the other.
      have hsame : b = c := by
        have hb : code b <+: code c ++ cs.flatMap code := ⟨_,hboth⟩
        obtain hbc | hcb := prefix_or_prefix_of_prefix hb (prefix_append _ _)
        · exact hcode b c hbc
        · exact (hcode c b hcb).symm
      subst hsame
      rw [ih (append_cancel_left hboth)]

variable [DecidableEq α] {x : α} {xs seg : List α} {groups : List (List α)}

theorem notMem_of_mem_splitOn (h : seg ∈ xs.splitOn x) : x ∉ seg := by
  intro hx
  simpa using whole_of_mem_splitOnP h x hx

omit [DecidableEq α] in
/-- The first separator of a text stands in one place only. -/
theorem first_unique {as as' bs bs' : List α} (h : as ++ x::bs = as' ++ x::bs') (ha : x ∉ as)
    (ha' : x ∉ as') : as = as' ∧ bs = bs' := by
  induction as generalizing as' with
  | nil =>
    cases as' with
    | nil => simpa using h
    | cons b as' =>
      obtain ⟨rfl,-⟩ := cons.inj h
      simp at ha'
  | cons a as ih =>
    cases as' with
    | nil =>
      obtain ⟨rfl,-⟩ := cons.inj h
      simp at ha
    | cons b as' =>
      obtain ⟨rfl,htail⟩ := cons.inj h
      obtain ⟨rfl,rfl⟩ := ih htail (by simp_all) (by simp_all)
      exact ⟨rfl,rfl⟩

omit [DecidableEq α] in
theorem length_le_length_flatten (h : ∀ g ∈ groups, g ≠ []) :
    groups.length ≤ groups.flatten.length := by
  induction groups with
  | nil => simp
  | cons g groups ih =>
    obtain ⟨hg,hgroups⟩ := forall_mem_cons.mp h
    have hpos := length_pos_iff.mpr hg
    have hrest := ih hgroups
    simp only [length_cons,flatten_cons,length_append]
    omega

omit [DecidableEq α] in
/-- As many entries as groups before a marked entry: the groups are single entries and the marks
agree, or the second mark is behind the first. -/
theorem groups_before {entries : List α} {mark mark' : α}
    {rest rest' : List α} (hlen : entries.length = groups.length) (hne : ∀ g ∈ groups, g ≠ [])
    (h : entries ++ mark::rest = groups.flatten ++ mark'::rest') :
    (groups = entries.map ([·]) ∧ mark = mark' ∧ rest = rest') ∨
      ∃ between, rest = between ++ mark'::rest' := by
  induction groups generalizing entries with
  | nil =>
    obtain rfl := eq_nil_of_length_eq_zero hlen
    exact .inl ⟨rfl,by simpa using h⟩
  | cons g groups ih =>
    obtain ⟨hg,hgroups⟩ := forall_mem_cons.mp hne
    cases entries with
    | nil => simp at hlen
    | cons a entries =>
      match g with
      | [] => exact absurd rfl hg
      | [b] =>
        obtain ⟨rfl,htail⟩ : a = b ∧
            entries ++ mark::rest = groups.flatten ++ mark'::rest' := by
          simpa using h
        obtain ⟨rfl,heq⟩ | hbehind := ih (by simpa using hlen) hgroups htail
        · exact .inl ⟨by simp,heq⟩
        · exact .inr hbehind
      | b::d::g =>
        right
        have hflat := length_le_length_flatten hgroups
        have htail : (entries ++ [mark]) ++ rest = (d::g ++ groups.flatten) ++ mark'::rest' := by
          have := congrArg tail h
          simpa using this
        have hshort : (entries ++ [mark]).length ≤ (d::g ++ groups.flatten).length := by
          simp only [length_append,length_cons,length_nil] at hlen ⊢
          omega
        obtain ⟨between,-,hrest⟩ | ⟨extra,hentries,hrest⟩ := append_eq_append_iff.mp htail
        · exact ⟨between,hrest⟩
        · obtain rfl : extra = [] := by
            rw [hentries,length_append] at hshort
            exact eq_nil_of_length_eq_zero (by omega)
          exact ⟨[],by simpa using hrest.symm⟩

end Splits
