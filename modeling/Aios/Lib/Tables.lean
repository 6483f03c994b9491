import Aios.Lib.SortedKeys

/-!
A transactional store of named tables. A read transaction finds only tables that a committed write
transaction has opened; a write transaction takes effect as a whole.
-/
namespace Tables

variable {τ κ β : Type*} [DecidableEq τ]

abbrev Table (κ β : Type*) := Finmap fun _ : κ => β

abbrev Database (τ κ β : Type*) := Finmap fun _ : τ => Table κ β

variable (db : Database τ κ β) (t : τ) {table : Table κ β}

def openTable : Option (Table κ β) := db.lookup t

/-- The table that a write transaction works on. -/
def opened : Table κ β := (openTable db t).getD ∅

def commit (table : Table κ β) : Database τ κ β := db.insert t table

@[simp] theorem openTable_empty : openTable (∅ : Database τ κ β) t = none := rfl

@[simp] theorem openTable_commit (table : Table κ β) :
    openTable (commit db t table) t = some table := by
  simp [openTable,commit]

@[simp] theorem openTable_commit_of_ne {db : Database τ κ β} {t u : τ} (h : u ≠ t) : openTable
    (commit db t table) u = openTable db u := by
  simp [openTable,commit,h]

theorem opened_of_openTable {db : Database τ κ β} {t : τ} (h : openTable db t = some table) :
    opened db t = table := by
  simp [opened,h]

variable [LinearOrder κ]

def rows (table : Table κ β) : List (κ × β) :=
  table.sortedKeys.filterMap fun k => (table.lookup k).map fun v => (k,v)

theorem mem_rows {k : κ} {v : β} : (k,v) ∈ rows table ↔ table.lookup k = some v := by
  unfold rows
  rw [List.mem_filterMap]
  constructor
  · rintro ⟨j,-,hj⟩
    obtain ⟨w,hw,heq⟩ := Option.map_eq_some_iff.mp hj
    obtain ⟨rfl,rfl⟩ := Prod.mk.inj heq
    exact hw
  · intro h
    refine ⟨k,Finmap.mem_sortedKeys.mpr (Finmap.mem_of_lookup_eq_some h),?_⟩
    simp [h]

theorem nodup_rows (table : Table κ β) : ((rows table).map Prod.fst).Nodup := by
  have hsub : ((rows table).map Prod.fst).Sublist table.sortedKeys := by
    unfold rows
    generalize table.sortedKeys = keys
    induction keys with
    | nil => exact List.Sublist.refl _
    | cons k keys ih =>
      rw [List.filterMap_cons]
      cases table.lookup k with
      | none => exact ih.cons k
      | some v => exact ih.cons_cons k
  exact hsub.nodup table.nodup_sortedKeys

end Tables
