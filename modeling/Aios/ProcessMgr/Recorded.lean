import Aios.ProcessMgr.Locks

/-!
The priority recorded for the owner of a lock. One entry stands for all locks of a process: written
when it takes a free lock, dropped with any release, and not written when a waiter is granted a
lock.
-/
namespace Aios.ProcessMgr.PriorityInheritance

open Transition Option Finmap
variable {s t : PriorityInheritance} {op : Op} {lock : UInt32} {pid : ProcessId}

def dropped (s : PriorityInheritance) : Op → Option ProcessId
  | .releaseLock l p => if s.ownerOf l = some p then some p else none
  | .releaseAll _ p | .restorePriority p => some p
  | _ => none

theorem releases_dropped (h : s.releases op lock = true) :
    ∃ p, s.dropped op = some p ∧ s.ownerOf lock = some p := by
  cases op with
  | releaseLock l p =>
    obtain ⟨hl,ho⟩ := Bool.and_eq_true_iff.mp h
    have howner : s.ownerOf lock = some p := of_decide_eq_true ho
    refine ⟨p,?_,howner⟩
    rw [of_decide_eq_true hl] at howner
    exact if_pos howner
  | releaseAll order p => exact ⟨p,rfl,of_decide_eq_true h⟩
  | acquireLock | requestResource | applyPendingBoosts | restorePriority => cases h

section
variable (s : PriorityInheritance)

theorem recordPriority_lookup (p : ProcessId) (priority : Priority) (q : ProcessId) :
    (s.recordPriority p priority).originalPriorities.lookup q =
      if q = p then some ((s.originalPriorities.lookup p).getD priority)
      else s.originalPriorities.lookup q := by
  unfold recordPriority
  split
  next hin =>
    obtain ⟨v,hv⟩ := mem_iff.mp hin
    split
    next hq => rw [hq,hv,getD_some]
    next => rfl
  next hnot =>
    have hnone := lookup_eq_none.mpr hnot
    simp only [lookup_insert_if,hnone,getD_none]

theorem boostOwner_lookup (owner : ProcessId) (priority : Priority) (reason : BoostReason)
    {q : ProcessId} (h : q = owner → q ∈ s.originalPriorities) :
    (s.boostOwner owner priority reason).originalPriorities.lookup q =
      s.originalPriorities.lookup q := by
  unfold boostOwner
  dsimp only
  split
  · rw [recordPriority_lookup]
    split
    next hq =>
      obtain ⟨v,hv⟩ := mem_iff.mp (h hq)
      subst hq
      simp only [hv,getD_some]
    next => rfl
  · rfl

theorem boostOwner_pendingBoosts (owner : ProcessId) (priority : Priority) (reason : BoostReason)
    {recorded : Priority} (h : s.originalPriorities.lookup owner = some recorded) :
    (s.boostOwner owner priority reason).pendingBoosts = s.pendingBoosts ++
      if recorded < priority then [⟨owner,recorded,priority,reason⟩] else [] := by
  have hin : owner ∈ s.originalPriorities := mem_of_lookup_eq_some h
  unfold boostOwner
  simp only [h,getD_some]
  split
  · simp only [recordPriority,if_pos hin]
  · simp only [List.append_nil]

theorem grantNext_originalPriorities (lock : UInt32) :
    (s.grantNext lock).1.originalPriorities = s.originalPriorities := by
  unfold grantNext
  split <;> rfl

end

theorem releaseOne_foldl_originalPriorities (locks : List UInt32) (s : PriorityInheritance) :
    (locks.foldl releaseOne s).originalPriorities = s.originalPriorities := by
  induction locks generalizing s with
  | nil => rfl
  | cons lock rest ih => exact (ih _).trans (grantNext_originalPriorities _ lock)

section
variable (hst : s.step op = some t)
include hst

theorem step_dropped {p : ProcessId} (h : s.dropped op = some p) :
    t.originalPriorities = s.originalPriorities.erase p := by
  cases op with
  | releaseLock l q =>
    obtain ⟨howner,he⟩ := ite_none_right_eq_some.mp h
    have hlookup : s.lockOwners.lookup l = some q := howner
    cases he
    cases hst
    simp only [releaseLock,hlookup,ne_eq,not_true_eq_false,if_false,
      grantNext_originalPriorities,restorePriority]
  | releaseAll order q =>
    cases h
    simp only [step] at hst
    split at hst
    next =>
      cases hst
      simp only [releaseAll,restorePriority,releaseOne_foldl_originalPriorities]
    next => cases hst
  | restorePriority q =>
    cases h
    cases hst
    rfl
  | acquireLock | requestResource | applyPendingBoosts => cases h

theorem step_bystander (hreq : op.request = none) (h : s.dropped op = none) :
    t.originalPriorities = s.originalPriorities := by
  cases op with
  | releaseLock l q =>
    have howner : s.ownerOf l ≠ some q := by
      intro ho
      simp [dropped,ho] at h
    rw [← some.inj hst,releaseLock_refused howner]
  | applyPendingBoosts =>
    cases hst
    rfl
  | acquireLock | requestResource => cases hreq
  | releaseAll | restorePriority => cases h

theorem step_lookup_of_mem (h : s.dropped op ≠ some pid) (hin : pid ∈ s.originalPriorities) :
    t.originalPriorities.lookup pid = s.originalPriorities.lookup pid := by
  cases hdrop : s.dropped op with
  | some p =>
    have hne : pid ≠ p := by
      rintro rfl
      exact h hdrop
    rw [step_dropped hst hdrop,lookup_erase_if,if_neg hne]
  | none =>
    cases hreq : op.request with
    | none => rw [step_bystander hst hreq hdrop]
    | some r =>
      rcases step_request hst hreq with ⟨-,rfl⟩ | ⟨owner,waiters,-,-,rfl⟩ | ⟨-,rfl⟩
      · rfl
      · exact boostOwner_lookup s owner r.priority r.reason fun _ => hin
      · obtain ⟨v,hv⟩ := mem_iff.mp hin
        rw [recordPriority_lookup]
        split
        next hq =>
          subst hq
          simp only [hv,getD_some]
        next => rfl

theorem step_new_entry (hnot : pid ∉ s.originalPriorities) (hin : pid ∈ t.originalPriorities) :
    ∃ lock, t.ownerOf lock = some pid := by
  have hold : t.originalPriorities.lookup pid ≠ s.originalPriorities.lookup pid := by
    rw [lookup_eq_none.mpr hnot]
    exact mem_iff_lookup_ne_none.mp hin
  cases hdrop : s.dropped op with
  | some p =>
    rw [step_dropped hst hdrop,mem_erase] at hin
    exact absurd hin.2 hnot
  | none =>
    cases hreq : op.request with
    | none =>
      rw [step_bystander hst hreq hdrop] at hold
      exact absurd rfl hold
    | some r =>
      rcases step_request hst hreq with ⟨-,rfl⟩ | ⟨owner,waiters,howner,-,rfl⟩ | ⟨-,rfl⟩
      · exact absurd rfl hold
      · refine ⟨r.lock,?_⟩
        have hpid : pid = owner := by
          by_contra hne
          exact hold (boostOwner_lookup s owner r.priority r.reason fun he => absurd he hne)
        rw [hpid]
        exact ((boostOwner_sameLocks s owner r.priority r.reason).ownerOf r.lock).trans howner
      · refine ⟨r.lock,?_⟩
        have hpid : pid = r.pid := by
          by_contra hne
          rw [recordPriority_lookup,if_neg hne] at hold
          exact hold rfl
        rw [(recordPriority_sameLocks _ r.pid r.priority).ownerOf,ownerOf_insert,if_pos rfl,hpid]

/-- A process without an entry that takes a free lock gets the priority that it passes. -/
theorem step_acquired_lookup (free : s.ownerOf lock = none) (owner : t.ownerOf lock = some pid)
    (hnot : pid ∉ s.originalPriorities) :
    ∃ r, op.request = some r ∧ t.originalPriorities.lookup pid = some r.priority := by
  obtain ⟨r,hreq,rfl,rfl⟩ := step_acquired hst free owner
  refine ⟨r,hreq,?_⟩
  have hnone := lookup_eq_none.mpr hnot
  rcases step_request hst hreq with ⟨hself,-⟩ | ⟨holder,waiters,hheld,-,-⟩ | ⟨-,rfl⟩
  · rw [free] at hself
    cases hself
  · rw [free] at hheld
    cases hheld
  · rw [recordPriority_lookup,if_pos rfl,hnone,getD_none]

end

structure Ledger where
  table : PriorityInheritance
  clock : ℕ
  since : UInt32 → ℕ
  /-- The priority that the owner of a lock passed for it. -/
  passed : UInt32 → Option Priority
  /-- The priorities that the waiters of a lock passed, in the order of its queue. -/
  queued : UInt32 → List Priority

namespace Ledger

def init : Ledger := ⟨new,0,fun _ => 0,fun _ => none,fun _ => []⟩

/-- The lock has an owner that does not give it up. -/
def stays (τ : Ledger) (op : Op) (lock : UInt32) : Bool :=
  (τ.table.ownerOf lock).isSome && !τ.table.releases op lock

/-- A waiter that is granted the lock passed its priority when it was queued. -/
def passes (τ : Ledger) (op : Op) (lock : UInt32) : Option Priority :=
  if τ.stays op lock then τ.passed lock
  else if τ.table.releases op lock then (τ.queued lock).head?
  else op.request.map Request.priority

def queues (τ : Ledger) (op : Op) (lock : UInt32) : List Priority :=
  if τ.table.releases op lock then (τ.queued lock).tail
  else
    match op.request with
    | some r =>
      if τ.table.blocks op lock r.pid then τ.queued lock ++ [r.priority] else τ.queued lock
    | none => τ.queued lock

def step (τ : Ledger) (op : Op) : Option Ledger :=
  (τ.table.step op).map fun t =>
    { table := t
      clock := τ.clock+1
      since := fun lock => if τ.stays op lock then τ.since lock else τ.clock
      passed := τ.passes op
      queued := τ.queues op }

/-- The lock is the first of those that the process holds. -/
def First (τ : Ledger) (pid : ProcessId) (lock : UInt32) : Prop :=
  τ.table.ownerOf lock = some pid ∧
    ∀ l, τ.table.ownerOf l = some pid → τ.since lock ≤ τ.since l

/-- A process that holds a lock has an entry: the priority that it passed for the first of
its locks. -/
def RecordedFor (τ : Ledger) (pid : ProcessId) : Prop :=
  ∀ lock, τ.table.ownerOf lock = some pid →
    ∃ priority, τ.table.originalPriorities.lookup pid = some priority ∧
      ∀ first, τ.First pid first → τ.passed first = some priority

def Recorded (τ : Ledger) : Prop := ∀ pid, τ.RecordedFor pid

/-- A request that runs into the owner of a lock queues a boost exactly if the priority of the
requester exceeds the recorded one. -/
def BoostsOwner (τ : Ledger) (op : Op) (τ' : Ledger) : Prop :=
  ∀ r owner, op.request = some r → τ.table.ownerOf r.lock = some owner → owner ≠ r.pid →
    ∃ recorded, τ.table.originalPriorities.lookup owner = some recorded ∧
      τ'.table.pendingBoosts = τ.table.pendingBoosts ++
        if recorded < r.priority then [⟨owner,recorded,r.priority,r.reason⟩] else []

/-- An entry is dropped only when its process gives up its last locks, to processes that hold others
already. -/
def DropsLast (τ : Ledger) (op : Op) : Prop :=
  ∀ pid, τ.table.dropped op = some pid →
    (∀ lock, τ.table.ownerOf lock = some pid → τ.table.releases op lock = true) ∧
      ∀ lock next, τ.table.releases op lock = true →
        (τ.table.waitersOf lock).head? = some next → next ≠ pid ∧ ∃ l, τ.table.ownerOf l = some next

structure Sane (τ : Ledger) : Prop where
  holds : ∀ pid, pid ∈ τ.table.originalPriorities → ∃ lock, τ.table.ownerOf lock = some pid
  past : ∀ lock, τ.table.ownerOf lock ≠ none → τ.since lock < τ.clock

variable {τ τ' : Ledger}

theorem step_eq_some (h : τ.step op = some τ') :
    τ.table.step op = some τ'.table ∧ τ'.clock = τ.clock+1 ∧
      (∀ lock, τ'.since lock = if τ.stays op lock then τ.since lock else τ.clock) ∧
      ∀ lock, τ'.passed lock = τ.passes op lock := by
  obtain ⟨t,ht,rfl⟩ := map_eq_some_iff.mp h
  exact ⟨ht,rfl,fun _ => rfl,fun _ => rfl⟩

theorem owner_of_stays (hst : τ.table.step op = some τ'.table) (h : τ.stays op lock = true)
    (howner : τ'.table.ownerOf lock = some pid) : τ.table.ownerOf lock = some pid := by
  simp only [stays,Bool.and_eq_true,Bool.not_eq_true',isSome_iff_exists] at h
  obtain ⟨⟨p,hp⟩,hrel⟩ := h
  have hkept := step_keeps hst hp hrel
  rw [hp,← hkept,howner]

/-- The lock came to its owner with this operation, from its queue or because it was free. -/
theorem gained (hst : τ.table.step op = some τ'.table) (h : τ.stays op lock = false)
    (howner : τ'.table.ownerOf lock = some pid) :
    τ.table.releases op lock = true ∧ (τ.table.waitersOf lock).head? = some pid ∨
      τ.table.releases op lock = false ∧ τ.table.ownerOf lock = none := by
  cases hrel : τ.table.releases op lock with
  | true => exact .inl ⟨rfl,(step_handed hst hrel).symm.trans howner⟩
  | false =>
    simpa [stays,hrel] using h

theorem RecordedFor.kept (h : τ.RecordedFor pid) (hsane : τ.Sane) (hst : τ.step op = some τ')
    (howns : ∃ lock, τ.table.ownerOf lock = some pid)
    (hkeeps : ∀ lock, τ.table.ownerOf lock = some pid → τ.table.releases op lock = false)
    (hentry : τ'.table.originalPriorities.lookup pid = τ.table.originalPriorities.lookup pid) :
    τ'.RecordedFor pid := by
  obtain ⟨htable,-,hsince,hpassed⟩ := step_eq_some hst
  obtain ⟨held,hheld⟩ := howns
  obtain ⟨priority,hlookup,hfirst⟩ := h held hheld
  have hstill (l : UInt32) (hl : τ.table.ownerOf l = some pid) :
      τ'.table.ownerOf l = some pid ∧ τ'.since l = τ.since l := by
    refine ⟨step_keeps htable hl (hkeeps l hl),?_⟩
    rw [hsince,if_pos (by simp [stays,hl,hkeeps l hl])]
  intro _ _
  refine ⟨priority,hentry.trans hlookup,fun first hf => ?_⟩
  -- a lock obtained just now is younger than the one held before
  have hstays : τ.stays op first = true := by
    by_contra hnew
    have hle := hf.2 held (hstill held hheld).1
    have hpast := hsane.past held (by simp [hheld])
    rw [(hstill held hheld).2,hsince,if_neg hnew] at hle
    omega
  have hold : τ.First pid first := by
    constructor
    · exact owner_of_stays htable hstays hf.1
    · intro l hl
      have hle := hf.2 l (hstill l hl).1
      rwa [(hstill l hl).2,hsince,if_pos hstays] at hle
  rw [hpassed,passes,if_pos hstays]
  exact hfirst first hold

theorem Sane.step (h : τ.Sane) (hst : τ.step op = some τ') : τ'.Sane := by
  obtain ⟨htable,hclock,hsince,-⟩ := step_eq_some hst
  constructor
  · intro pid hin
    by_cases hbefore : pid ∈ τ.table.originalPriorities
    · obtain ⟨lock,howner⟩ := h.holds pid hbefore
      refine ⟨lock,step_keeps htable howner ?_⟩
      -- a released lock belongs to the process whose entry is gone
      by_contra hrel
      obtain ⟨p,hdrop,hp⟩ := releases_dropped (by simpa using hrel)
      rw [howner,some.injEq] at hp
      rw [step_dropped htable hdrop,mem_erase] at hin
      exact hin.1 hp
    · exact step_new_entry htable hbefore hin
  · intro lock howner
    rw [hsince,hclock]
    split
    next hstays =>
      obtain ⟨pid,hpid⟩ := ne_none_iff_exists'.mp howner
      have hpast := h.past lock (by simp [owner_of_stays htable hstays hpid])
      omega
    next => omega

/-- An operation that leaves every owner with its entry drops none that is still needed. -/
theorem Recorded.dropsLast (h : τ'.Recorded) (hsane : τ.Sane) (hst : τ.step op = some τ') :
    τ.DropsLast op := by
  obtain ⟨htable,-,-,-⟩ := step_eq_some hst
  intro pid hdrop
  have hgone : τ'.table.originalPriorities.lookup pid = none := by
    rw [step_dropped htable hdrop,lookup_erase_if,if_pos rfl]
  have hempty (lock : UInt32) : τ'.table.ownerOf lock ≠ some pid := by
    intro howner
    obtain ⟨priority,hlookup,-⟩ := h pid lock howner
    rw [hgone] at hlookup
    cases hlookup
  constructor
  · intro lock howner
    by_contra hrel
    exact hempty lock (step_keeps htable howner (by simpa using hrel))
  · intro lock next hrel hnext
    have howner := (step_handed htable hrel).trans hnext
    have hne : next ≠ pid := by
      rintro rfl
      exact hempty lock howner
    obtain ⟨priority,hlookup,-⟩ := h next lock howner
    rw [step_dropped htable hdrop,lookup_erase_if,if_neg hne] at hlookup
    exact ⟨hne,hsane.holds next (mem_of_lookup_eq_some hlookup)⟩

/-- A process whose entry is dropped gave up its last locks and is granted none. -/
theorem DropsLast.owns_none (h : τ.DropsLast op) (hst : τ.table.step op = some τ'.table)
    (hdropped : τ.table.dropped op = some pid) : τ'.table.ownerOf lock ≠ some pid := by
  intro howner
  obtain ⟨hlast,hnext⟩ := h pid hdropped
  cases hstays : τ.stays op lock with
  | true =>
    have hbefore := owner_of_stays hst hstays howner
    simp [stays,hlast lock hbefore] at hstays
  | false =>
    rcases gained hst hstays howner with ⟨hrel,hhead⟩ | ⟨-,hfree⟩
    · exact absurd rfl (hnext lock pid hrel hhead).1
    · obtain ⟨r,hreq,-⟩ := step_acquired hst hfree howner
      cases op <;> simp_all [Op.request,dropped]

/-- The first locks of a process were free before, and recorded with its request. -/
theorem DropsLast.recordedFor_newcomer (h : τ.DropsLast op) (hsane : τ.Sane)
    (hst : τ.step op = some τ') (howns : ¬ ∃ lock, τ.table.ownerOf lock = some pid) :
    τ'.RecordedFor pid := by
  obtain ⟨htable,-,-,hpassed⟩ := step_eq_some hst
  have hnot : pid ∉ τ.table.originalPriorities := fun hin => howns (hsane.holds pid hin)
  have hfree (lock : UInt32) (howner : τ'.table.ownerOf lock = some pid) :
      τ.stays op lock = false ∧ τ.table.releases op lock = false ∧
        τ.table.ownerOf lock = none := by
    have hstays : τ.stays op lock = false := by
      by_contra hs
      exact howns ⟨lock,owner_of_stays htable (by simpa using hs) howner⟩
    rcases gained htable hstays howner with ⟨hrel,hhead⟩ | hfree
    · obtain ⟨p,hdrop,-⟩ := releases_dropped hrel
      exact absurd ((h p hdrop).2 lock pid hrel hhead).2 howns
    · exact ⟨hstays,hfree⟩
  intro lock howner
  obtain ⟨r,hreq,hlookup⟩ := step_acquired_lookup htable (hfree lock howner).2.2 howner hnot
  refine ⟨r.priority,hlookup,fun first hf => ?_⟩
  obtain ⟨hstays,hrel,-⟩ := hfree first hf.1
  simp [hpassed,passes,hstays,hrel,hreq]

/-- From a good state an operation leads to one exactly if it drops no entry that is still
needed. -/
theorem recorded_step (hsane : τ.Sane) (h : τ.Recorded) (hst : τ.step op = some τ') :
    τ'.Recorded ↔ τ.DropsLast op := by
  obtain ⟨htable,-,-,-⟩ := step_eq_some hst
  refine ⟨fun h' => h'.dropsLast hsane hst,fun hdrops pid => ?_⟩
  by_cases hdropped : τ.table.dropped op = some pid
  · intro lock howner
    exact absurd howner (hdrops.owns_none htable hdropped)
  · by_cases howns : ∃ lock, τ.table.ownerOf lock = some pid
    · obtain ⟨held,hheld⟩ := howns
      obtain ⟨priority,hlookup,-⟩ := h pid held hheld
      refine (h pid).kept hsane hst ⟨held,hheld⟩ (fun lock howner => ?_)
        (step_lookup_of_mem htable hdropped (mem_of_lookup_eq_some hlookup))
      by_contra hrel
      obtain ⟨p,hdrop,hp⟩ := releases_dropped (by simpa using hrel)
      rw [howner] at hp
      exact hdropped (hdrop.trans hp.symm)
    · exact hdrops.recordedFor_newcomer hsane hst howns

theorem boostsOwner_step (h : τ.Recorded) (hst : τ.step op = some τ') : τ.BoostsOwner op τ' := by
  obtain ⟨htable,-,-,-⟩ := step_eq_some hst
  intro r owner hreq howner hne
  obtain ⟨recorded,hlookup,-⟩ := h owner r.lock howner
  refine ⟨recorded,hlookup,?_⟩
  rcases step_request htable hreq with ⟨hself,-⟩ | ⟨holder,waiters,hheld,-,ht⟩ | ⟨hfree,-⟩
  · rw [howner] at hself
    exact absurd (some.inj hself) hne
  · rw [howner,some.injEq] at hheld
    subst hheld
    rw [ht]
    exact boostOwner_pendingBoosts τ.table owner r.priority r.reason hlookup
  · rw [hfree] at howner
    cases howner

/-- In every run every owner of a lock has its entry and contention is judged by it,
precisely if entries are only dropped with the last locks of a process, which go to
processes that hold others. -/
theorem recorded_iff_drops_last (ops : List Op) :
    (Always step Recorded init ops ∧ EachStep step BoostsOwner init ops) ↔
      EachStep step (fun τ op _ => τ.DropsLast op) init ops := by
  have hiff : Always step Recorded init ops ↔
      EachStep step (fun τ op _ => τ.DropsLast op) init ops := by
    apply always_iff_eachStep (J := Sane)
    · intro τ op τ' hsane hst
      exact hsane.step hst
    · intro τ op τ' hsane h hst
      exact recorded_step hsane h hst
    · exact ⟨fun _ hin => absurd hin notMem_empty,fun _ howner => absurd rfl howner⟩
    · intro pid lock howner
      cases howner
  constructor
  · rintro ⟨h,-⟩
    exact hiff.mp h
  · intro hc
    have h := hiff.mpr hc
    refine ⟨h,h.eachStep (Q := BoostsOwner) ?_ hc⟩
    intro τ op τ' hrec _ hst
    exact boostsOwner_step hrec hst

/-- Process 1 holds two locks and gives up one: it still owns the other, without an entry. -/
theorem inner_release_drops_entry : ∃ τ, exec step init
        [.acquireLock 1 1 .low,.acquireLock 2 1 .low,.releaseLock 2 1] = some τ ∧
      τ.table.ownerOf 1 = some 1 ∧ τ.table.originalPriorities.lookup 1 = none ∧ ¬ Recorded τ := by
  refine ⟨_,rfl,by decide,by decide,fun h => ?_⟩
  obtain ⟨priority,hlookup,-⟩ := h 1 1 (by decide)
  exact absurd hlookup (by decide +revert)

end Ledger
end Aios.ProcessMgr.PriorityInheritance
