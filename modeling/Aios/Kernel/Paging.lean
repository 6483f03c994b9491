import Aios.Kernel.PageTables
import Aios.Lib.Transition

/-!
Mapping and unmapping pages. Creating tables and opening them to ring 3 changes no translation; only
the last write of `map_page` does, for its page.
-/
namespace Aios.Kernel

open StoredTree List Unshared Bits

section
variable {d : ℕ} {e : UInt64} (user : Bool)

theorem pageFlags_frame : pageFlags user &&& pteFrame = 0 := by cases user <;> rfl

theorem pageFlags_huge : pageFlags user &&& pteHuge = 0 := by cases user <;> rfl

theorem pageFlags_present : pageFlags user &&& ptePresent = ptePresent := by cases user <;> rfl

theorem or_pageFlags_present (a : UInt64) : (a ||| pageFlags user) &&& ptePresent ≠ 0 := by
  rw [or_and,pageFlags_present]
  intro h
  exact absurd (UInt64.or_eq_zero_iff.mp h).2 (by decide)

theorem child_of_absent (h : e &&& ptePresent = 0) : child d e = none := by
  match d with
  | 0 => exact if_pos h
  | 1 | 2 => exact if_pos (.inl h)
  | _+3 => rfl

theorem child_zero_entry : child d 0 = none := child_of_absent rfl

theorem child_of_present (hd : d ≤ 2) (h : e &&& ptePresent ≠ 0)
    (hhuge : d = 0 ∨ e &&& pteHuge = 0) : child d e = some (frameOf e) := by
  match d with
  | 0 => exact if_neg h
  | 1 | 2 =>
    refine if_neg fun hc => ?_
    rcases hc with hc | hc
    · exact h hc
    · exact hc (hhuge.resolve_left (by decide))
  | _+3 => omega

theorem child_or_user (e : UInt64) : child d (e ||| pteUser) = child d e := by
  have hp : (e ||| pteUser) &&& ptePresent = e &&& ptePresent := or_and_eq e rfl
  have hh : (e ||| pteUser) &&& pteHuge = e &&& pteHuge := or_and_eq e rfl
  have hf : frameOf (e ||| pteUser) = frameOf e := Subtype.ext (or_and_eq e rfl)
  match d with
  | 0 => simp only [child,hp,hf]
  | 1 | 2 => simp only [child,hp,hh,hf]
  | _+3 => rfl

theorem frameOf_or_pageFlags (f : Frame) : frameOf (f.1 ||| pageFlags user) = f := by
  apply Subtype.ext
  show (f.1 ||| pageFlags user) &&& pteFrame = f.1
  rw [or_and_eq _ (pageFlags_frame user),f.2]

theorem child_new_table (hd : d ≤ 2) (f : Frame) : child d (f.1 ||| pageFlags user) = some f := by
  have hhuge : (f.1 ||| pageFlags user) &&& pteHuge = 0 := by
    rw [or_and_eq _ (pageFlags_huge user)]
    exact and_eq_zero f.2 rfl
  rw [child_of_present hd (or_pageFlags_present user f.1) (.inr hhuge),frameOf_or_pageFlags]

theorem located_of_absent (addr : UInt64) (h : e &&& ptePresent = 0) :
    located addr (some (d,e)) = none := if_pos h

theorem located_or_user (addr e : UInt64) :
    located addr (some (d,e ||| pteUser)) = located addr (some (d,e)) := by
  have hp : (e ||| pteUser) &&& ptePresent = e &&& ptePresent := or_and_eq e rfl
  have hf : (e ||| pteUser) &&& pteFrame = e &&& pteFrame := or_and_eq e rfl
  simp only [located,hp,hf]

end

variable {addr : UInt64} {r : Except String UInt64}

theorem path_split {q : List Index} {i : Index} (hq : q.length ≤ 2) (h : q ++ [i] <+: path addr) :
    ∃ j r, path addr = q ++ i::j::r := by
  obtain ⟨rest,hrest⟩ := h
  cases rest with
  | nil =>
    have hlen := congrArg length hrest
    rw [append_nil,length_append,length_singleton] at hlen
    exact absurd hlen (by show q.length+1 ≠ 4; omega)
  | cons j r =>
    refine ⟨j,r,?_⟩
    rw [← hrest,append_assoc]
    rfl

namespace Memory

variable {m t : Memory} {q : List Index} {n f : Frame} {i : Index} {e : UInt64} {user : Bool}

structure Extends (m t : Memory) : Prop where
  root : t.root = m.root
  unshared : t.Unshared
  translate : ∀ addr, t.translate addr = m.translate addr

theorem Extends.trans {u : Memory} (h : Extends m t) (k : Extends t u) : Extends m u where
  root := k.root.trans h.root
  unshared := k.unshared
  translate addr := (k.translate addr).trans (h.translate addr)

theorem translate_congr (h : t.leafOf addr = m.leafOf addr) :
    t.translate addr = m.translate addr := by
  rw [translate_eq,translate_eq,h]

@[simp] theorem writeEntry_root (a b v : UInt64) : (m.writeEntry a b v).root = m.root := rfl

section

theorem clearTable_eq (frame : UInt64) :
    ∃ words, m.clearTable frame = { m with words := words } := by
  unfold clearTable
  generalize range 512 = ks
  induction ks generalizing m with
  | nil => exact ⟨m.words,rfl⟩
  | cons k ks ih =>
    obtain ⟨words,hwords⟩ := ih (m := m.writeEntry frame (UInt64.ofNat k) 0)
    exact ⟨words,hwords⟩

theorem clearTable_root (frame : UInt64) : (m.clearTable frame).root = m.root := by
  obtain ⟨words,hwords⟩ := m.clearTable_eq frame
  rw [hwords]
  rfl

theorem clearTable_frames (frame : UInt64) : (m.clearTable frame).frames = m.frames := by
  obtain ⟨words,hwords⟩ := m.clearTable_eq frame
  rw [hwords]

variable (hf : ¬ m.IsTable f.1)

include hf

theorem entry_clearTable_of_tableAt {p : List Index} {g : Frame} (hp : m.tableAt p = some g)
    (j : Index) : (m.clearTable f.1).entry g j = m.entry g j := by
  rw [entry_clearTable,if_neg]
  rintro rfl
  exact hf ⟨p,g,hp,rfl⟩

theorem tableAt_clearTable (p : List Index) : (m.clearTable f.1).tableAt p = m.tableAt p := by
  unfold tableAt
  rw [clearTable_root]
  refine walk_congr (fun p g hp j => ?_) p
  rw [entry_clearTable_of_tableAt hf hp]

theorem leafOf_clearTable (addr : UInt64) : (m.clearTable f.1).leafOf addr = m.leafOf addr := by
  unfold leafOf
  rw [clearTable_root]
  exact leaf_congr (fun p g hp j => .inl (entry_clearTable_of_tableAt hf hp j)) _

theorem clearTable_unshared (hm : m.Unshared) : (m.clearTable f.1).Unshared := by
  unfold Unshared
  rw [clearTable_root]
  exact congr hm fun p => by
    have hp := tableAt_clearTable hf p
    unfold tableAt at hp
    rwa [clearTable_root] at hp

end

section
variable (hm : m.Unshared) (hq : m.tableAt q = some n)

include hm hq

theorem tableAt_setUser (p : List Index) :
    (m.writeEntry n.1 i.1 (m.entry n i ||| pteUser)).tableAt p = m.tableAt p := by
  unfold tableAt
  rw [entry_writeEntry]
  exact walk_write_of_child hm hq (child_or_user _) p

/-- Opening an entry to ring 3 moves no page, be it a table or a huge page. -/
theorem translate_setUser (addr : UInt64) :
    (m.writeEntry n.1 i.1 (m.entry n i ||| pteUser)).translate addr = m.translate addr := by
  cases hc : child q.length (m.entry n i) with
  | some x =>
    refine translate_congr ?_
    unfold leafOf
    rw [entry_writeEntry]
    exact leaf_write_of_child hm hq hc ((child_or_user _).trans hc) _
  | none =>
    by_cases hp : q ++ [i] <+: path addr
    · obtain ⟨r,hr⟩ := hp
      rw [append_assoc,singleton_append] at hr
      have hold : m.leafOf addr = some (q.length,m.entry n i) := by
        rw [leafOf,← hr,leaf_append hq,Nat.zero_add,leaf_cons_none hc]
      have hnew : (m.writeEntry n.1 i.1 (m.entry n i ||| pteUser)).leafOf addr =
          some (q.length,m.entry n i ||| pteUser) := by
        unfold leafOf
        rw [← hr,entry_writeEntry]
        refine (leaf_write_through hm hq r).trans ?_
        rw [leaf_cons_none (by rw [write_same,child_or_user,hc]),write_same]
      rw [translate_eq,translate_eq,hold,hnew,located_or_user]
    · refine translate_congr ?_
      unfold leafOf
      rw [entry_writeEntry]
      exact leaf_write_elsewhere hm hq hp

theorem setUser_extends : Extends m (m.writeEntry n.1 i.1 (m.entry n i ||| pteUser)) where
  root := rfl
  unshared := congr hm (tableAt_setUser hm hq)
  translate := translate_setUser hm hq

end

section

theorem not_reachable_clearTable (hf : ¬ m.IsTable f.1) :
    ¬ Reachable child (m.clearTable f.1).entry (m.clearTable f.1).root f := by
  rintro ⟨p,hp⟩
  exact hf ⟨p,f,(tableAt_clearTable hf p).symm.trans hp,rfl⟩

theorem child_cleared (d : ℕ) (j : Index) : child d ((m.clearTable f.1).entry f j) = none := by
  rw [entry_clearTable,if_pos rfl,child_zero_entry]

variable (hm : m.Unshared) (hq : m.tableAt q = some n) (hlen : q.length ≤ 2) (hf : ¬ m.IsTable f.1)

include hm hq hlen hf

/-- A new table in place of a missing one is empty, so nothing behind it is mapped. -/
theorem link_extends (user : Bool) (habsent : m.entry n i &&& ptePresent = 0) :
    Extends m ((m.clearTable f.1).writeEntry n.1 i.1 (f.1 ||| pageFlags user)) := by
  have hcm := clearTable_unshared hf hm
  have hcq := (tableAt_clearTable hf q).trans hq
  have hfresh := not_reachable_clearTable hf
  have hempty := child_cleared (m := m) (f := f) (q.length+1)
  have hlink := child_new_table user hlen f
  refine ⟨(writeEntry_root ..).trans (clearTable_root f.1),?_,fun addr => ?_⟩
  · unfold Unshared
    rw [entry_writeEntry,writeEntry_root]
    exact link hcm hcq hfresh hlink hempty
  · by_cases hp : q ++ [i] <+: path addr
    · obtain ⟨j,r,hr⟩ := path_split hlen hp
      have hold : m.leafOf addr = some (q.length,m.entry n i) := by
        rw [leafOf,hr,leaf_append hq,Nat.zero_add,leaf_cons_none (child_of_absent habsent)]
      have hnew : ((m.clearTable f.1).writeEntry n.1 i.1 (f.1 ||| pageFlags user)).leafOf addr =
          some (q.length+1,0) := by
        unfold leafOf
        rw [hr,entry_writeEntry,writeEntry_root]
        refine (leaf_link hcm hcq hfresh hlink hempty j r).trans ?_
        rw [entry_clearTable,if_pos rfl]
      rw [translate_eq,translate_eq,hold,hnew,located_of_absent _ habsent,located_of_absent _ rfl]
    · refine translate_congr ?_
      rw [← leafOf_clearTable hf]
      unfold leafOf
      rw [entry_writeEntry,writeEntry_root]
      exact leaf_write_elsewhere hcm hcq hp

omit hlen in
theorem tableAt_link (p : List Index) (hp : ¬ q ++ [i] <+: p) :
    ((m.clearTable f.1).writeEntry n.1 i.1 e).tableAt p = m.tableAt p := by
  rw [← tableAt_clearTable hf p]
  unfold tableAt
  rw [entry_writeEntry,writeEntry_root]
  exact walk_write_elsewhere (clearTable_unshared hf hm) ((tableAt_clearTable hf q).trans hq) hp

theorem isTable_link {g : UInt64}
    (hg : ((m.clearTable f.1).writeEntry n.1 i.1 (f.1 ||| pageFlags user)).IsTable g) :
    m.IsTable g ∨ g = f.1 := by
  obtain ⟨p,x,hp,rfl⟩ := hg
  unfold tableAt at hp
  rw [entry_writeEntry,writeEntry_root] at hp
  rcases walk_link (clearTable_unshared hf hm) ((tableAt_clearTable hf q).trans hq)
    (not_reachable_clearTable hf) (child_new_table user hlen f) (child_cleared _) hp with
    ⟨-,rfl⟩ | hold
  · exact .inr rfl
  · exact .inl ⟨p,x,(tableAt_clearTable hf p).symm.trans hold,rfl⟩

end

/-- What `alloc_frame` is assumed to do where a table is missing: the frame that it returns
is no table yet. -/
def FreshAt (m : Memory) (parent index : UInt64) : Prop :=
  m.readEntry parent index &&& ptePresent = 0 →
    ∀ frame, m.allocFrame.2 = some frame → frame &&& pteFrame = frame ∧ ¬ m.IsTable frame

theorem ensureTable_cases (m : Memory) (parent index flags : UInt64) :
    (m.readEntry parent index &&& ptePresent ≠ 0 ∧
      m.ensureTable parent index flags = (m,.ok (m.readEntry parent index))) ∨
    m.readEntry parent index &&& ptePresent = 0 ∧
      ((m.allocFrame.2 = none ∧ ∃ err,
        m.ensureTable parent index flags = (m.allocFrame.1,.error err)) ∨
      ∃ frame, m.allocFrame.2 = some frame ∧ m.ensureTable parent index flags =
        ((m.allocFrame.1.clearTable frame).writeEntry parent index (frame ||| flags),
          .ok (frame ||| flags))) := by
  unfold ensureTable
  dsimp only
  split_ifs with hpresent
  · exact .inl ⟨hpresent,rfl⟩
  · refine .inr ⟨not_not.mp hpresent,?_⟩
    cases hframe : m.allocFrame.2 with
    | none =>
      have hresult : m.allocFrame = (m.allocFrame.1,none) := Prod.ext rfl hframe
      rw [hresult]
      exact .inl ⟨rfl,_,rfl⟩
    | some frame =>
      have hresult : m.allocFrame = (m.allocFrame.1,some frame) := Prod.ext rfl hframe
      rw [hresult]
      exact .inr ⟨frame,rfl,rfl⟩

theorem enterTable_cases {parent index flags : UInt64}
    (h : m.enterTable parent index flags user = (t,r)) :
    m.ensureTable parent index flags = (t,r) ∨
    ∃ u e, m.ensureTable parent index flags = (u,.ok e) ∧
      t = u.writeEntry parent index (e ||| pteUser) ∧ r = .ok (e ||| pteUser) := by
  unfold enterTable at h
  generalize m.ensureTable parent index flags = result at h ⊢
  obtain ⟨u,r'⟩ := result
  cases r' with
  | error err =>
    cases h
    exact .inl rfl
  | ok e =>
    split_ifs at h <;> cases h
    · exact .inr ⟨u,e,rfl,rfl,rfl⟩
    · exact .inl rfl

structure Entered (m : Memory) (q : List Index) (n : Frame) (i : Index) (t : Memory)
    (e : UInt64) : Prop where
  isExtended : Extends m t
  table : t.tableAt q = some n
  entry : t.entry n i = e
  present : e &&& ptePresent ≠ 0

section
variable (hm : m.Unshared) (hq : m.tableAt q = some n) (hlen : q.length ≤ 2)
  (hfresh : m.FreshAt n.1 i.1)

include hm hq hlen hfresh

theorem ensureTable_spec (user : Bool) (h : m.ensureTable n.1 i.1 (pageFlags user) = (t,r)) :
    Extends m t ∧ ∀ e, r = .ok e → Entered m q n i t e := by
  rcases m.ensureTable_cases n.1 i.1 (pageFlags user) with ⟨hpresent,heq⟩ |
    ⟨habsent,⟨-,err,heq⟩ | ⟨frame,hframe,heq⟩⟩ <;> cases heq.symm.trans h
  · have hself : Extends m m := ⟨rfl,hm,fun _ => rfl⟩
    refine ⟨hself,fun e he => ?_⟩
    cases he
    exact ⟨hself,hq,rfl,hpresent⟩
  · exact ⟨⟨rfl,hm,fun _ => rfl⟩,fun e he => nomatch he⟩
  · obtain ⟨hmask,htable⟩ := hfresh habsent frame hframe
    have hlinked := link_extends (m := m.allocFrame.1) (f := ⟨frame,hmask⟩) hm hq hlen htable
      user habsent
    have hext : Extends m _ := ⟨hlinked.root,hlinked.unshared,hlinked.translate⟩
    refine ⟨hext,fun e he => ?_⟩
    cases he
    refine ⟨hext,?_,?_,or_pageFlags_present user frame⟩
    · exact (tableAt_link (m := m.allocFrame.1) (f := ⟨frame,hmask⟩) hm hq htable q
        (concat_not_prefix_self q i)).trans hq
    · rw [entry_writeEntry,write_same]

/-- One level of the walk, whether the table was there or is new, with or without `user`. -/
theorem enterTable_spec (h : m.enterTable n.1 i.1 (pageFlags user) user = (t,r)) :
    Extends m t ∧ ∀ e, r = .ok e → Entered m q n i t e := by
  rcases enterTable_cases h with hensure | ⟨u,e,hensure,rfl,rfl⟩
  · exact ensureTable_spec hm hq hlen hfresh user hensure
  · obtain ⟨hext,hok⟩ := ensureTable_spec hm hq hlen hfresh user hensure
    have hentered := hok e rfl
    have hset := setUser_extends (i := i) hext.unshared hentered.table
    have htable := tableAt_setUser (i := i) hext.unshared hentered.table q
    rw [hentered.entry] at hset htable
    refine ⟨hext.trans hset,fun e' he => ?_⟩
    cases he
    refine ⟨hext.trans hset,htable.trans hentered.table,?_,?_⟩
    · rw [entry_writeEntry,write_same]
    · rw [or_and_eq e rfl]
      exact hentered.present

end

theorem Entered.tableAt_concat (h : Entered m q n i t e) (hlen : q.length ≤ 2)
    (hhuge : q.length = 0 ∨ e &&& pteHuge = 0) : t.tableAt (q ++ [i]) = some (frameOf e) := by
  rw [tableAt,walk_concat]
  show (t.tableAt q).bind _ = _
  rw [h.table,Option.bind_some,h.entry,child_of_present hlen h.present hhuge]

/-- The position of the index into a table of the given depth. -/
def levelShift : ℕ → UInt64
  | 0 => 39
  | 1 => 30
  | 2 => 21
  | _ => 12

/-- `map_page` has entered the tables on the path of `virt` down to depth `k`: the memory
then, and the table. -/
inductive Enters (m : Memory) (virt : UInt64) (user : Bool) : ℕ → Memory → Frame → Prop
  | top : Enters m virt user 0 m m.root
  | deeper {k : ℕ} {t u : Memory} {n : Frame} {e : UInt64} (h : Enters m virt user k t n)
      (hk : k ≤ 2)
      (henter : t.enterTable n.1 (indexAt virt (levelShift k)).1 (pageFlags user) user = (u,.ok e))
      (hhuge : k = 0 ∨ e &&& pteHuge = 0) : Enters m virt user (k+1) u (frameOf e)

/-- The assumption on `alloc_frame` wherever `map_page` looks for a table. -/
def MapsFresh (m : Memory) (virt : UInt64) (user : Bool) : Prop :=
  ∀ k t n, Enters m virt user k t n → k ≤ 2 → t.FreshAt n.1 (indexAt virt (levelShift k)).1

/-- Every outcome of `map_page`: it stops at some table, or it writes an entry of the last
one. -/
theorem mapPage_inv (m : Memory) (virt phys : UInt64) (user : Bool) :
    ((m.mapPage virt phys user).1 = m ∧ ∃ err, (m.mapPage virt phys user).2 = .error err) ∨
    (∃ k t n r err, Enters m virt user k t n ∧ k ≤ 2 ∧
      t.enterTable n.1 (indexAt virt (levelShift k)).1 (pageFlags user) user =
        ((m.mapPage virt phys user).1,r) ∧ (m.mapPage virt phys user).2 = .error err) ∨
    ∃ t n, Enters m virt user 3 t n ∧
      m.mapPage virt phys user =
        (t.writeEntry n.1 (indexAt virt 12).1 (phys ||| pageFlags user),.ok ()) := by
  unfold mapPage
  split_ifs
  · exact .inl ⟨rfl,_,rfl⟩
  have htop : Enters m virt user 0 m m.root := .top
  obtain ⟨⟨m₁,r₁⟩,h₁⟩ : ∃ x, m.enterTable m.pml4 ((virt >>> 39) &&& indexMask)
    (pageFlags user) user = x := ⟨_,rfl⟩
  simp only [h₁]
  cases r₁ with
  | error err => exact .inr (.inl ⟨0,_,_,_,err,htop,by decide,h₁,rfl⟩)
  | ok pml4e =>
    have henters₁ : Enters m virt user 1 m₁ (frameOf pml4e) :=
      .deeper htop (by decide) h₁ (.inl rfl)
    obtain ⟨⟨m₂,r₂⟩,h₂⟩ : ∃ x, m₁.enterTable (pml4e &&& pteFrame)
      ((virt >>> 30) &&& indexMask) (pageFlags user) user = x := ⟨_,rfl⟩
    simp only [h₂]
    cases r₂ with
    | error err => exact .inr (.inl ⟨1,_,_,_,err,henters₁,by decide,h₂,rfl⟩)
    | ok pdpte =>
      dsimp only
      split_ifs with hhuge₂
      · exact .inr (.inl ⟨1,_,_,_,_,henters₁,by decide,h₂,rfl⟩)
      have henters₂ : Enters m virt user 2 m₂ (frameOf pdpte) :=
        .deeper henters₁ (by decide) h₂ (.inr (not_not.mp hhuge₂))
      obtain ⟨⟨m₃,r₃⟩,h₃⟩ : ∃ x, m₂.enterTable (pdpte &&& pteFrame)
        ((virt >>> 21) &&& indexMask) (pageFlags user) user = x := ⟨_,rfl⟩
      simp only [h₃]
      cases r₃ with
      | error err => exact .inr (.inl ⟨2,_,_,_,err,henters₂,by decide,h₃,rfl⟩)
      | ok pde =>
        dsimp only
        split_ifs with hhuge₃
        · exact .inr (.inl ⟨2,_,_,_,_,henters₂,by decide,h₃,rfl⟩)
        exact .inr (.inr ⟨m₃,frameOf pde,
          .deeper henters₂ (by decide) h₃ (.inr (not_not.mp hhuge₃)),rfl⟩)

section
variable {virt : UInt64} {k : ℕ} (hm : m.Unshared)

theorem path_take_succ (hk : k ≤ 2) :
    (path virt).take (k+1) = (path virt).take k ++ [indexAt virt (levelShift k)] := by
  match k with
  | 0 | 1 | 2 => rfl
  | _+3 => omega

theorem path_take_length (hk : k ≤ 2) : ((path virt).take k).length ≤ 2 :=
  (length_take_le k _).trans hk

include hm

theorem enterTable_on_path (hq : m.tableAt ((path virt).take k) = some n) (hk : k ≤ 2)
    (hfresh : m.FreshAt n.1 (indexAt virt (levelShift k)).1)
    (h : m.enterTable n.1 (indexAt virt (levelShift k)).1 (pageFlags user) user = (t,r)) :
    Extends m t ∧ ∀ e, r = .ok e → (k = 0 ∨ e &&& pteHuge = 0) →
      t.tableAt ((path virt).take (k+1)) = some (frameOf e) := by
  have hlen : ((path virt).take k).length = k := length_take_of_le (by show k ≤ 4; omega)
  obtain ⟨hext,hok⟩ := enterTable_spec hm hq (path_take_length hk) hfresh h
  refine ⟨hext,fun e he hhuge => ?_⟩
  rw [path_take_succ hk]
  exact (hok e he).tableAt_concat (path_take_length hk) (by rwa [hlen])

/-- The tables that `map_page` enters are those of the path, and no page has moved. -/
theorem Enters.spec (hfresh : m.MapsFresh virt user) (h : Enters m virt user k t n) :
    Extends m t ∧ t.tableAt ((path virt).take k) = some n := by
  induction h with
  | top => exact ⟨⟨rfl,hm,fun _ => rfl⟩,rfl⟩
  | @deeper k t u n e h hk henter hhuge ih =>
    obtain ⟨hext,htable⟩ := ih
    obtain ⟨hnext,hok⟩ := enterTable_on_path hext.unshared htable hk (hfresh k t n h hk) henter
    exact ⟨hext.trans hnext,hok e rfl hhuge⟩

theorem mapPage_cases (hfresh : m.MapsFresh virt user) (phys : UInt64) :
    (∃ err, (m.mapPage virt phys user).2 = .error err ∧
      Extends m (m.mapPage virt phys user).1) ∨
    ∃ u pt, Extends m u ∧
      u.tableAt [indexAt virt 39,indexAt virt 30,indexAt virt 21] = some pt ∧
      m.mapPage virt phys user =
        (u.writeEntry pt.1 (indexAt virt 12).1 (phys ||| pageFlags user),.ok ()) := by
  rcases m.mapPage_inv virt phys user with ⟨hsame,err,herr⟩ |
    ⟨k,t,n,r,err,henters,hk,henter,herr⟩ | ⟨t,n,henters,heq⟩
  · refine .inl ⟨err,herr,?_⟩
    rw [hsame]
    exact ⟨rfl,hm,fun _ => rfl⟩
  · obtain ⟨hext,htable⟩ := henters.spec hm hfresh
    have hlast := enterTable_on_path hext.unshared htable hk (hfresh k t n henters hk) henter
    exact .inl ⟨err,herr,hext.trans hlast.1⟩
  · obtain ⟨hext,htable⟩ := henters.spec hm hfresh
    exact .inr ⟨t,n,hext,htable,heq⟩

end

section
variable {v : UInt64} (hm : m.Unshared) (hq : m.tableAt q = some n) (hlen : q.length = 3)

include hm hq hlen

theorem writeLeaf_unshared : (m.writeEntry n.1 i.1 v).Unshared := by
  refine congr hm fun p => ?_
  rw [entry_writeEntry]
  refine walk_write_of_child hm hq ?_ p
  rw [hlen]
  rfl

theorem translate_writeLeaf (haddr : path addr = q ++ [i]) :
    (m.writeEntry n.1 i.1 v).translate addr = located addr (some (3,v)) := by
  have hleaf : (m.writeEntry n.1 i.1 v).leafOf addr = some (3,v) := by
    unfold leafOf
    rw [haddr,entry_writeEntry,writeEntry_root]
    refine (leaf_write_through hm hq []).trans ?_
    rw [hlen,leaf_cons_none rfl,write_same]
  rw [translate_eq,hleaf]

theorem translate_writeLeaf_of_ne (haddr : path addr ≠ q ++ [i]) :
    (m.writeEntry n.1 i.1 v).translate addr = m.translate addr := by
  refine translate_congr ?_
  unfold leafOf
  rw [entry_writeEntry,writeEntry_root]
  refine leaf_write_elsewhere hm hq fun hp => haddr ?_
  refine (List.IsPrefix.eq_of_length hp ?_).symm
  rw [length_append,hlen]
  rfl

end

/-- A present entry of an upper table maps a huge page around the address. -/
def HugePageCovers (m : Memory) (virt : UInt64) : Prop :=
  ∃ d e, m.leafOf virt = some (d,e) ∧ d ≠ 3 ∧ e &&& ptePresent ≠ 0

theorem unmapPage_cases (m : Memory) (virt : UInt64) :
    (m.unmapPage virt = m ∧ (isPageAligned virt = true →
      m.HugePageCovers virt ∨ ∃ d e, m.leafOf virt = some (d,e) ∧ e &&& ptePresent = 0)) ∨
    ∃ pt, m.tableAt [indexAt virt 39,indexAt virt 30,indexAt virt 21] = some pt ∧
      m.unmapPage virt = m.writeEntry pt.1 (indexAt virt 12).1 0 := by
  have hunfold : m.unmapPage virt =
      if !isPageAligned virt then m
      else if m.pml4e virt &&& ptePresent = 0 then m
      else if m.pdpte virt &&& ptePresent = 0 ∨ m.pdpte virt &&& pteHuge ≠ 0 then m
      else if m.pde virt &&& ptePresent = 0 ∨ m.pde virt &&& pteHuge ≠ 0 then m
      else if m.pte virt &&& ptePresent ≠ 0 then
        m.writeEntry (frameOf (m.pde virt)).1 (indexAt virt 12).1 0
      else m := rfl
  have habsent {d : ℕ} {e : UInt64} (hleaf : m.leafOf virt = some (d,e)) (hd : d ≠ 3) :
      m.HugePageCovers virt ∨ ∃ d e, m.leafOf virt = some (d,e) ∧ e &&& ptePresent = 0 := by
    by_cases hp : e &&& ptePresent = 0
    · exact .inr ⟨d,e,hleaf,hp⟩
    · exact .inl ⟨d,e,hleaf,hd,hp⟩
  have hleaf := m.leafOf_eq virt
  cases halign : isPageAligned virt with
  | false => exact .inl ⟨by rw [hunfold,halign]; rfl,nofun⟩
  | true =>
    rw [halign,Bool.not_true,if_neg Bool.false_ne_true] at hunfold
    rw [hunfold]
    split_ifs at hleaf ⊢ with h0 h1 h2 h3
    · exact .inl ⟨rfl,fun _ => habsent hleaf (by decide)⟩
    · exact .inl ⟨rfl,fun _ => habsent hleaf (by decide)⟩
    · exact .inl ⟨rfl,fun _ => habsent hleaf (by decide)⟩
    · exact .inr ⟨_,tableAt_last h0 h1 h2,rfl⟩
    · exact .inl ⟨rfl,fun _ => .inr ⟨3,_,hleaf,not_not.mp h3⟩⟩

end Memory
end Aios.Kernel
