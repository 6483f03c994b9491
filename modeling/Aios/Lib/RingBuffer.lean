import Mathlib.Data.List.Basic
import Mathlib.Data.Nat.ModEq

/-!
Bounded queues in a circular array: the position of the oldest entry, the number of entries, and
cells reused modulo the capacity.
-/

/-- Cells that hold no entry are unrestricted. -/
structure RingBuffer (α : Type*) (cap : ℕ) where
  cells : ℕ → α
  head : ℕ
  count : ℕ
  head_lt : head < cap
  count_le : count ≤ cap

namespace RingBuffer

open List
variable {α : Type*} {cap : ℕ}

def empty (fill : α) (hcap : 0 < cap) : RingBuffer α cap :=
  ⟨fun _ => fill,0,0,hcap,Nat.zero_le cap⟩

def front (r : RingBuffer α cap) (n : ℕ) : List α :=
  (List.range n).map fun i => r.cells ((r.head+i)%cap)

def toList (r : RingBuffer α cap) : List α := r.front r.count

def push (r : RingBuffer α cap) (a : α) : RingBuffer α cap :=
  if h : r.count < cap then
    { r with
      cells := Function.update r.cells ((r.head+r.count)%cap) a
      count := r.count+1
      count_le := h }
  else r

def pushAll (r : RingBuffer α cap) (as : List α) : RingBuffer α cap := as.foldl push r

def drop (r : RingBuffer α cap) (n : ℕ) : RingBuffer α cap where
  cells := r.cells
  head := (r.head+n)%cap
  count := r.count-n
  head_lt := Nat.mod_lt _ (Nat.zero_lt_of_lt r.head_lt)
  count_le := (Nat.sub_le _ _).trans r.count_le

variable (r : RingBuffer α cap) {n : ℕ}

@[simp] theorem length_front (n : ℕ) : (r.front n).length = n := by simp [front]

@[simp] theorem length_toList : r.toList.length = r.count := r.length_front r.count

theorem toList_eq_nil : r.toList = [] ↔ r.count = 0 := by rw [← length_eq_zero_iff,length_toList]

/-- Different places of the queue lie in different cells. -/
theorem cell_ne {i : ℕ} (hi : i < n) (hn : n < cap) : (r.head+i)%cap ≠ (r.head+n)%cap := by
  intro he
  have hmod : i%cap = n%cap := Nat.ModEq.add_left_cancel' r.head he
  rw [Nat.mod_eq_of_lt (hi.trans hn),Nat.mod_eq_of_lt hn] at hmod
  omega

theorem count_push (a : α) (h : r.count < cap) : (r.push a).count = r.count+1 := by simp [push,h]

theorem toList_push (a : α) (h : r.count < cap) : (r.push a).toList = r.toList ++ [a] := by
  have hold (i : ℕ) (hi : i ∈ List.range r.count) :
      Function.update r.cells ((r.head+r.count)%cap) a ((r.head+i)%cap) =
        r.cells ((r.head+i)%cap) :=
    Function.update_of_ne (r.cell_ne (mem_range.mp hi) h) ..
  simp only [toList,front,push,h,dite_true,range_succ,map_append,map_cons,
    map_nil,Function.update_self]
  rw [map_congr_left hold]

theorem toList_pushAll (as : List α) (h : r.count+as.length ≤ cap) :
    (r.pushAll as).toList = r.toList ++ as := by
  induction as generalizing r with
  | nil => simp [pushAll]
  | cons a as ih =>
    rw [length_cons] at h
    have hlt : r.count < cap := by omega
    have hrest : (r.push a).count+as.length ≤ cap := by
      rw [r.count_push a hlt]
      omega
    have hpush : r.pushAll (a::as) = (r.push a).pushAll as := rfl
    rw [hpush,ih _ hrest,r.toList_push a hlt,append_assoc,singleton_append]

/-- A queue that grew at its end, whatever happened to the cells without entries. -/
theorem toList_eq_append {r r' : RingBuffer α cap} {as : List α} (hhead : r'.head = r.head)
    (hcount : r'.count = r.count+as.length)
    (hold : ∀ i < r.count, r'.cells ((r.head+i)%cap) = r.cells ((r.head+i)%cap))
    (hnew : ∀ i (h : i < as.length), r'.cells ((r.head+(r.count+i))%cap) = as[i]) :
    r'.toList = r.toList ++ as := by
  apply ext_getElem
  · simp [hcount]
  · intro i h₁ h₂
    rw [length_toList,hcount] at h₁
    by_cases hi : i < r.count
    · simp [toList,front,hhead,hi,hold i hi]
    · obtain ⟨k,rfl⟩ := Nat.exists_eq_add_of_le (Nat.le_of_not_lt hi)
      have hk : k < as.length := by omega
      simpa [toList,front,hhead] using hnew k hk

theorem front_eq_take (h : n ≤ r.count) : r.front n = r.toList.take n := by
  simp only [toList,front,← map_take,take_range,Nat.min_eq_left h]

theorem toList_drop (n : ℕ) : (r.drop n).toList = r.toList.drop n := by
  apply ext_getElem
  · simp [drop]
  · simp [toList,front,drop,Nat.add_assoc]

/-- What is taken out and what stays make up the queue. -/
theorem front_append_drop (h : n ≤ r.count) : r.front n ++ (r.drop n).toList = r.toList := by
  rw [r.front_eq_take h,r.toList_drop,take_append_drop]

end RingBuffer
