import Aios.Lib.Keyed
import Aios.Lib.SortedKeys
import Aios.Lib.Transition
import Mathlib.Data.List.MinMax
import Mathlib.Data.String.Basic

/-!
The cache of decompressed data. The entries of a hash map carry counters that tell which was used
last; the specification keeps the entries in a list in the order of their last use. The counter is
taken not to wrap around, which takes `2 ^ 64` operations.
-/
namespace Aios.Compress

open Keyed List Transition

abbrev Data := List UInt8

structure CacheEntry where
  data : Data
  accessCount : ℕ

structure CompressionCache where
  cache : Finmap fun _ : String => CacheEntry
  maxEntries : ℕ
  accessCounter : ℕ

inductive Op where
  | get (key : String)
  | insert (i : Finmap.Iteration String) (key : String) (data : Data)
  | clear

namespace CompressionCache

def new (maxEntries : ℕ) : CompressionCache := ⟨∅,maxEntries,0⟩

section
variable (c : CompressionCache)

def store (key : String) (data : Data) : CompressionCache :=
  let counter := c.accessCounter+1
  { c with cache := c.cache.insert key ⟨data,counter⟩, accessCounter := counter }

def get (key : String) : CompressionCache × Option Data :=
  match c.cache.lookup key with
  | none => (c,none)
  | some entry => (c.store key entry.data,some entry.data)

/-- `min_by_key` over the entries, in the order of the iteration. -/
def lruKey (i : Finmap.Iteration String) : Option String :=
  (c.cache.keysIn i).argmin fun key => (c.cache.lookup key).elim 0 CacheEntry.accessCount

def evict (i : Finmap.Iteration String) (key : String) : CompressionCache :=
  if c.maxEntries ≤ c.cache.keys.card ∧ key ∉ c.cache then
    match c.lruKey i with
    | some lru => { c with cache := c.cache.erase lru }
    | none => c
  else c

def insert (i : Finmap.Iteration String) (key : String) (data : Data) : CompressionCache :=
  (c.evict i key).store key data

def clear : CompressionCache := { c with cache := ∅ }

def react : Op → CompressionCache × Option Data
  | .get key => c.get key
  | .insert i key data => (c.insert i key data,none)
  | .clear => (c.clear,none)

end
end CompressionCache

/-- The entries of an LRU cache, the one whose last use is oldest in front. -/
abbrev Lru (β : Type) := List (String × β)

namespace Lru

def use {β : Type} (l : Lru β) (key : String) (b : β) : Lru β := l.filter (·.1 ≠ key) ++ [(key,b)]

def react (maxEntries : ℕ) (l : Lru Data) : Op → Lru Data × Option Data
  | .get key =>
    match entry Prod.fst key l with
    | none => (l,none)
    | some (_,data) => (l.use key data,some data)
  | .insert _ key data =>
    let kept := if maxEntries ≤ l.length ∧ key ∉ l.map Prod.fst then l.tail else l
    (use kept key data,none)
  | .clear => ([],none)

def forget (us : Lru CacheEntry) : Lru Data := us.map fun a => (a.1,a.2.data)

theorem forget_use (us : Lru CacheEntry) (key : String) (e : CacheEntry) :
    (us.use key e).forget = us.forget.use key e.data := by
  simp [use,forget,filter_map,Function.comp_def]

theorem entry_forget (us : Lru CacheEntry) (key : String) :
    entry Prod.fst key us.forget = (entry Prod.fst key us).map fun a => (a.1,a.2.data) := find?_map

end Lru

namespace CompressionCache

/-- The list has the entries of the cache in the order of their counters. -/
structure Holds (m : ℕ) (c : CompressionCache) (us : Lru CacheEntry) : Prop where
  nodup : (us.map Prod.fst).Nodup
  lookup : ∀ key, c.cache.lookup key = (entry Prod.fst key us).map Prod.snd
  ascending : us.Pairwise fun a b => a.2.accessCount < b.2.accessCount
  counted : ∀ a ∈ us, a.2.accessCount ≤ c.accessCounter
  maxEntries : c.maxEntries = m
  length : us.length ≤ max 1 m

namespace Holds

variable {m : ℕ} {c : CompressionCache} {us : Lru CacheEntry} {a : String × CacheEntry}
  {key : String}

theorem mem_iff (h : Holds m c us) : key ∈ c.cache ↔ key ∈ us.map Prod.fst := by
  rw [Finmap.mem_iff_lookup_ne_none,h.lookup,ne_eq,Option.map_eq_none_iff,entry_eq_none,not_not]

theorem mem_keysIn (h : Holds m c us) (i : Finmap.Iteration String) :
    key ∈ c.cache.keysIn i ↔ key ∈ us.map Prod.fst := by
  rw [Finmap.keysIn,(i.perm _).mem_iff,Finmap.mem_sortedKeys,h.mem_iff]

theorem card_keys (h : Holds m c us) : c.cache.keys.card = us.length := by
  have hkeys : c.cache.keys = (us.map Prod.fst).toFinset := by
    ext key
    rw [Finmap.mem_keys,h.mem_iff,mem_toFinset]
  rw [hkeys,toFinset_card_of_nodup h.nodup,length_map]

/-- The entry in front is found by its counter, whatever the order of the iteration. -/
theorem lruKey_eq (h : Holds m c (a::us)) (i : Finmap.Iteration String) :
    c.lruKey i = some a.1 := by
  have hcount {b : String × CacheEntry} (hb : b ∈ a::us) :
      (c.cache.lookup b.1).elim 0 CacheEntry.accessCount = b.2.accessCount := by
    rw [h.lookup,(entry_eq_some h.nodup).mpr ⟨hb,rfl⟩]
    rfl
  have hleast {key : String} (hkey : key ∈ c.cache.keysIn i) :
      key = a.1 ∨ (c.cache.lookup a.1).elim 0 CacheEntry.accessCount <
        (c.cache.lookup key).elim 0 CacheEntry.accessCount := by
    obtain ⟨b,hb,rfl⟩ := mem_map.mp ((h.mem_keysIn i).mp hkey)
    refine (mem_cons.mp hb).imp (congrArg _) fun hb => ?_
    rw [hcount mem_cons_self,hcount (mem_cons_of_mem a hb)]
    exact rel_of_pairwise_cons h.ascending hb
  refine mem_argmin_iff.mpr ⟨(h.mem_keysIn i).mpr mem_cons_self,fun key hkey => ?_,
    fun key hkey hle => ?_⟩
  · rcases hleast hkey with rfl | hlt
    · exact le_rfl
    · exact hlt.le
  · rcases hleast hkey with rfl | hlt
    · exact le_rfl
    · exact absurd hle hlt.not_ge

theorem tail (h : Holds m c (a::us)) : Holds m { c with cache := c.cache.erase a.1 } us := by
  obtain ⟨hnot,hnodup⟩ := nodup_cons.mp h.nodup
  refine ⟨hnodup,fun key => ?_,h.ascending.tail,fun b hb => h.counted b (mem_cons_of_mem a hb),
    h.maxEntries,(Nat.le_succ _).trans h.length⟩
  rw [Finmap.lookup_erase_if,h.lookup,entry_cons]
  split
  · next heq => rw [heq,entry_eq_none.mpr hnot,Option.map_none]
  · next hne => rw [if_neg (Ne.symm hne)]

theorem store (h : Holds m c us) (data : Data)
    (hroom : key ∈ us.map Prod.fst ∨ us.length < max 1 m) :
    Holds m (c.store key data) (us.use key ⟨data,c.accessCounter+1⟩) := by
  have hnone : entry Prod.fst key (us.filter (·.1 ≠ key)) = none := by simp [entry]
  have hcounted {b : String × CacheEntry} (hb : b ∈ us.filter (·.1 ≠ key)) :
      b.2.accessCount < c.accessCounter+1 :=
    Nat.lt_succ_of_le (h.counted b (mem_filter.mp hb).1)
  refine ⟨?_,fun j => ?_,?_,fun b hb => ?_,h.maxEntries,?_⟩
  · rw [Lru.use,map_append,map_singleton,← concat_eq_append]
    exact (h.nodup.sublist (filter_sublist.map _)).concat (entry_eq_none.mp hnone)
  · rw [CompressionCache.store,Finmap.lookup_insert_if,Lru.use,entry_append_singleton hnone rfl]
    split
    · rfl
    · rw [h.lookup,entry,entry,find?_filter]
      congr 2
      grind
  · refine pairwise_append.mpr ⟨h.ascending.filter _,pairwise_singleton _ _,fun b hb d hd => ?_⟩
    cases mem_singleton.mp hd
    exact hcounted hb
  · rcases mem_append.mp hb with hb | hb
    · exact (hcounted hb).le
    · cases mem_singleton.mp hb
      exact le_rfl
  · rw [Lru.use,length_append,length_singleton]
    rcases hroom with hkey | hless
    · obtain ⟨b,hb,rfl⟩ := mem_map.mp hkey
      have hless : (us.filter (·.1 ≠ b.1)).length < us.length :=
        length_filter_lt_length_iff_exists.mpr ⟨b,hb,by simp⟩
      exact hless.trans_le h.length
    · exact (Nat.succ_le_succ (length_filter_le _ _)).trans hless

theorem evict (h : Holds m c us) (i : Finmap.Iteration String) (key : String) :
    ∃ kept, Holds m (c.evict i key) kept ∧ (key ∈ kept.map Prod.fst ∨ kept.length < max 1 m) ∧
      kept = if m ≤ us.length ∧ key ∉ us.map Prod.fst then us.tail else us := by
  have hiff : (c.maxEntries ≤ c.cache.keys.card ∧ key ∉ c.cache) ↔
      m ≤ us.length ∧ key ∉ us.map Prod.fst := by
    rw [h.maxEntries,h.card_keys,h.mem_iff]
  have hlength := h.length
  by_cases hfull : m ≤ us.length ∧ key ∉ us.map Prod.fst
  · rw [CompressionCache.evict,if_pos (hiff.mpr hfull)]
    refine ⟨us.tail,?_,.inr (by rw [length_tail]; omega),(if_pos hfull).symm⟩
    cases us with
    | nil =>
      have hnone : c.lruKey i = none :=
        argmin_eq_none.mpr (eq_nil_iff_forall_not_mem.mpr fun key => by simp [h.mem_keysIn i])
      rw [hnone]
      exact h
    | cons a us =>
      rw [h.lruKey_eq]
      exact h.tail
  · rw [CompressionCache.evict,if_neg (hiff.not.mpr hfull)]
    refine ⟨us,h,?_,(if_neg hfull).symm⟩
    by_cases hkey : key ∈ us.map Prod.fst
    · exact .inl hkey
    · have hless : us.length < m := not_le.mp fun hle => hfull ⟨hle,hkey⟩
      exact .inr (hless.trans_le (le_max_right 1 m))

theorem react (h : Holds m c us) (op : Op) : ∃ us', Holds m (c.react op).1 us' ∧
    us.forget.react m op = (us'.forget,(c.react op).2) := by
  cases op with
  | get key =>
    have hlookup := h.lookup key
    simp only [CompressionCache.react,Lru.react,get,us.entry_forget key]
    cases hfound : entry Prod.fst key us with
    | none =>
      rw [hfound] at hlookup
      rw [hlookup]
      exact ⟨us,h,rfl⟩
    | some a =>
      rw [hfound] at hlookup
      rw [hlookup]
      refine ⟨_,h.store a.2.data (.inl (mem_map.mpr ⟨a,mem_of_entry hfound⟩)),?_⟩
      rw [us.forget_use]
      rfl
  | insert i key data =>
    obtain ⟨kept,hkept,hroom,heq⟩ := h.evict i key
    refine ⟨_,hkept.store data hroom,?_⟩
    rw [kept.forget_use,heq,Lru.react]
    have hkeys : us.forget.map Prod.fst = us.map Prod.fst := map_map
    have hlength : us.forget.length = us.length := length_map _
    rw [hkeys,hlength]
    split
    · exact congrArg (fun l => (Lru.use l key data,_)) map_tail.symm
    · rfl
  | clear =>
    exact ⟨[],⟨nodup_nil,fun _ => rfl,.nil,forall_mem_nil _,h.maxEntries,Nat.zero_le _⟩,rfl⟩

theorem run (h : Holds m c us) (ops : List Op) :
    ∃ us', Holds m (answers CompressionCache.react c ops).1 us' ∧
      answers (Lru.react m) us.forget ops =
        (us'.forget,(answers CompressionCache.react c ops).2) := by
  induction ops generalizing c us with
  | nil => exact ⟨us,h,rfl⟩
  | cons op ops ih =>
    obtain ⟨next,hnext,hreact⟩ := h.react op
    obtain ⟨us',hend,hrest⟩ := ih hnext
    refine ⟨us',hend,?_⟩
    rw [answers,hreact,hrest]
    rfl

end Holds
end CompressionCache

/-- The cache answers as an LRU cache does, and holds the same entries. -/
theorem cache_refines_lru (maxEntries : ℕ) (ops : List Op) :
    let run := answers CompressionCache.react (.new maxEntries) ops
    let spec := answers (Lru.react maxEntries) [] ops
    run.2 = spec.2 ∧ run.1.cache.keys.card = spec.1.length ∧ spec.1.length ≤ max 1 maxEntries ∧
      ∀ key, (run.1.cache.lookup key).map (·.data) = (entry Prod.fst key spec.1).map Prod.snd := by
  have hnew : CompressionCache.Holds maxEntries (.new maxEntries) [] :=
    ⟨nodup_nil,fun _ => rfl,.nil,forall_mem_nil _,rfl,Nat.zero_le _⟩
  obtain ⟨us,h,hspec⟩ := hnew.run ops
  intro run spec
  have hlength : spec.1.length = us.length := by
    rw [show spec = _ from hspec]
    exact length_map _
  refine ⟨(congrArg Prod.snd hspec).symm,h.card_keys.trans hlength.symm,hlength.trans_le h.length,
    fun key => ?_⟩
  rw [show spec = _ from hspec,h.lookup,us.entry_forget,Option.map_map,Option.map_map]
  rfl

end Aios.Compress
