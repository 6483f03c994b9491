import Aios.ProcessMgr.PriorityInheritance

/-!
The lock protocol. Every operation does one of four things to a lock: nothing, grant it while it is
free, queue a requester, or hand it over. The order of the waiters is compared with the history.
-/
namespace Aios.ProcessMgr.PriorityInheritance

open Transition List Option
variable {s t : PriorityInheritance} {op : Op} {lock : UInt32} {pid : ProcessId}

variable (s)

/-- The operation is an attempt of `pid` to take a lock that another process holds. -/
def blocks : Op → UInt32 → ProcessId → Bool
  | .acquireLock l p _, lock, pid =>
    lock = l && pid = p && (s.ownerOf lock).isSome && s.ownerOf lock ≠ some pid
  | _, _, _ => false

/-- The operation makes the owner of the lock give it up. -/
def releases : Op → UInt32 → Bool
  | .releaseLock l p, lock => lock = l && s.ownerOf lock = some p
  | .releaseAll _ p, lock => s.ownerOf lock = some p
  | _, _ => false

variable {s}

inductive LockChange (s : PriorityInheritance) (op : Op) (t : PriorityInheritance)
    (lock : UInt32) : Prop where
  | same (noBlock : ∀ pid, s.blocks op lock pid = false) (noRelease : s.releases op lock = false)
      (owner : t.ownerOf lock = s.ownerOf lock) (waiters : t.waitersOf lock = s.waitersOf lock)
  | acquired (pid : ProcessId) (noBlock : ∀ pid, s.blocks op lock pid = false)
      (noRelease : s.releases op lock = false) (free : s.ownerOf lock = none)
      (owner : t.ownerOf lock = some pid) (waiters : t.waitersOf lock = s.waitersOf lock)
  | queued (pid holder : ProcessId)
      (block : ∀ p, s.blocks op lock p = decide (p = pid)) (noRelease : s.releases op lock = false)
      (held : s.ownerOf lock = some holder) (other : holder ≠ pid)
      (owner : t.ownerOf lock = some holder)
      (waiters : t.waitersOf lock = s.waitersOf lock ++ [pid])
  | handed (noBlock : ∀ pid, s.blocks op lock pid = false) (release : s.releases op lock = true)
      (owner : t.ownerOf lock = (s.waitersOf lock).head?)
      (waiters : t.waitersOf lock = (s.waitersOf lock).tail)

structure SameLocks (s t : PriorityInheritance) : Prop where
  owners : t.lockOwners = s.lockOwners
  waiters : t.lockWaiters = s.lockWaiters

variable (s)

theorem recordPriority_sameLocks (pid : ProcessId)
    (priority : Priority) : SameLocks s (s.recordPriority pid priority) := by
  unfold recordPriority
  split <;> exact ⟨rfl,rfl⟩

theorem boostOwner_sameLocks (owner : ProcessId) (priority : Priority)
    (reason : BoostReason) : SameLocks s (s.boostOwner owner priority reason) := by
  unfold boostOwner
  dsimp only
  split
  · have h := recordPriority_sameLocks
      { s with pendingBoosts := s.pendingBoosts ++
        [⟨owner,(s.originalPriorities.lookup owner).getD .normal,priority,reason⟩] } owner
      ((s.originalPriorities.lookup owner).getD .normal)
    exact ⟨h.owners,h.waiters⟩
  · exact ⟨rfl,rfl⟩

variable {s}

theorem SameLocks.ownerOf (h : SameLocks s t) (lock : UInt32) :
    t.ownerOf lock = s.ownerOf lock := by
  rw [PriorityInheritance.ownerOf,h.owners,PriorityInheritance.ownerOf]

theorem SameLocks.waitersOf (h : SameLocks s t) (lock : UInt32) :
    t.waitersOf lock = s.waitersOf lock := by
  rw [PriorityInheritance.waitersOf,h.waiters,PriorityInheritance.waitersOf]

variable (s)

theorem releaseOne_ownerOf (lock l : UInt32) : (s.releaseOne lock).ownerOf l =
      if l = lock then (s.waitersOf lock).head? else s.ownerOf l := by
  unfold releaseOne grantNext ownerOf waitersOf
  split
  next next rest hw =>
    rw [Finmap.lookup_insert_if,Finmap.lookup_erase_if,hw]
    split <;> rfl
  next hw =>
    rw [Finmap.lookup_erase_if]
    split
    · cases hl : s.lockWaiters.lookup lock with
      | none => rfl
      | some ws =>
        cases ws with
        | nil => rfl
        | cons next rest => exact absurd hl (hw next rest)
    · rfl

theorem releaseOne_waitersOf (lock l : UInt32) : (s.releaseOne lock).waitersOf l =
      if l = lock then (s.waitersOf lock).tail else s.waitersOf l := by
  unfold releaseOne grantNext waitersOf
  split
  next next rest hw =>
    rw [Finmap.lookup_insert_if,hw]
    split <;> rfl
  next hw =>
    split
    next hl =>
      subst hl
      cases hw' : s.lockWaiters.lookup l with
      | none => rfl
      | some ws =>
        cases ws with
        | nil => rfl
        | cons next rest => exact absurd hw' (hw next rest)
    next => rfl

variable {s} {p : ProcessId}

theorem releaseOne_foldl {locks : List UInt32} (hnd : locks.Nodup) (s : PriorityInheritance)
    (l : UInt32) :
    (locks.foldl releaseOne s).ownerOf l =
        (if l ∈ locks then (s.waitersOf l).head? else s.ownerOf l) ∧
      (locks.foldl releaseOne s).waitersOf l =
        if l ∈ locks then (s.waitersOf l).tail else s.waitersOf l := by
  induction locks generalizing s with
  | nil => simp
  | cons lock rest ih =>
    obtain ⟨hnot,hrest⟩ := nodup_cons.mp hnd
    obtain ⟨howner,hwaiters⟩ := ih hrest (s.releaseOne lock)
    rw [foldl_cons,howner,hwaiters,releaseOne_ownerOf,releaseOne_waitersOf]
    by_cases hl : l = lock
    · subst hl
      simp [hnot]
    · simp [hl]

section
variable (s : PriorityInheritance)

theorem waitersOf_insert (lock : UInt32) (ws : List ProcessId) (l : UInt32) :
    ({ s with lockWaiters := s.lockWaiters.insert lock ws } : PriorityInheritance).waitersOf l =
      if l = lock then ws else s.waitersOf l := by
  unfold waitersOf
  rw [Finmap.lookup_insert_if]
  split <;> rfl

theorem ownerOf_insert (lock : UInt32) (pid : ProcessId) (l : UInt32) :
    ({ s with lockOwners := s.lockOwners.insert lock pid } : PriorityInheritance).ownerOf l =
      if l = lock then some pid else s.ownerOf l := Finmap.lookup_insert_if _ _ _ _

theorem acquireLock_lockChange (l : UInt32) (p : ProcessId) (priority : Priority) (lock : UInt32) :
    LockChange s (.acquireLock l p priority) (s.acquireLock l p priority).1 lock := by
  unfold acquireLock
  split
  next owner howner =>
    have hheld : s.ownerOf l = some owner := howner
    split
    next hself =>
      refine .same (fun pid => ?_) rfl rfl rfl
      by_cases hl : lock = l <;> by_cases hp : pid = p <;> simp [blocks,hl,hp,hheld,hself]
    next hother =>
      have hboost := boostOwner_sameLocks s owner priority .lockContention
      by_cases hl : lock = l
      · subst hl
        refine .queued p owner (fun pid => ?_) rfl hheld hother ?_ ?_
        · by_cases hp : pid = p <;> simp [blocks,hp,hheld,hother]
        · exact (hboost.ownerOf lock).trans hheld
        · rw [waitersOf_insert,if_pos rfl,← hboost.waitersOf lock]
          rfl
      · refine .same (fun pid => by simp [blocks,hl]) rfl (hboost.ownerOf lock) ?_
        rw [waitersOf_insert,if_neg hl,hboost.waitersOf]
  next hnone =>
    have hfree : s.ownerOf l = none := hnone
    have hrec := recordPriority_sameLocks
      { s with lockOwners := s.lockOwners.insert l p } p priority
    have hblock (pid : ProcessId) : s.blocks (.acquireLock l p priority) lock pid = false := by
      by_cases hl : lock = l <;> simp [blocks,hl,hfree]
    by_cases hl : lock = l
    · refine .acquired p hblock rfl (hl ▸ hfree) ?_ (hrec.waitersOf lock)
      rw [hrec.ownerOf,ownerOf_insert,if_pos hl]
    · refine .same hblock rfl ?_ (hrec.waitersOf lock)
      rw [hrec.ownerOf,ownerOf_insert,if_neg hl]

theorem requestResource_lockChange (p : ProcessId) (priority : Priority) (l lock : UInt32) :
    LockChange s (.requestResource p priority l) (s.requestResource p priority l).1 lock := by
  unfold requestResource
  split
  next owner howner =>
    split
    · exact .same (fun _ => rfl) rfl rfl rfl
    · have hboost := boostOwner_sameLocks s owner priority .resourceWait
      exact .same (fun _ => rfl) rfl (hboost.ownerOf lock) (hboost.waitersOf lock)
  next hnone =>
    have hrec := recordPriority_sameLocks
      { s with lockOwners := s.lockOwners.insert l p } p priority
    by_cases hl : lock = l
    · refine .acquired p (fun _ => rfl) rfl (hl ▸ hnone) ?_ (hrec.waitersOf lock)
      rw [hrec.ownerOf,ownerOf_insert,if_pos hl]
    · refine .same (fun _ => rfl) rfl ?_ (hrec.waitersOf lock)
      rw [hrec.ownerOf,ownerOf_insert,if_neg hl]

end

/-- The priorities do not influence a handover. -/
theorem releaseLock_sameLocks (h : s.ownerOf lock = some pid) :
    SameLocks (s.releaseOne lock) (s.releaseLock lock pid).1 := by
  have howner : s.lockOwners.lookup lock = some pid := h
  unfold releaseLock releaseOne
  rw [howner]
  simp only [ne_eq,restorePriority,grantNext]
  split <;> exact ⟨rfl,rfl⟩

theorem releaseLock_refused (h : s.ownerOf lock ≠ some pid) : (s.releaseLock lock pid).1 = s := by
  unfold releaseLock
  split
  · rfl
  next owner howner =>
    have hne : owner ≠ pid := by
      rintro rfl
      exact h howner
    rw [if_pos hne]

theorem releaseLock_lockChange (l : UInt32) :
    LockChange s (.releaseLock l p) (s.releaseLock l p).1 lock := by
  by_cases hp : s.ownerOf l = some p
  · have hsame := releaseLock_sameLocks hp
    by_cases hl : lock = l
    · refine .handed (fun _ => rfl) (by simp [releases,hl,hp]) ?_ ?_
      · rw [hsame.ownerOf,releaseOne_ownerOf,if_pos hl,hl]
      · rw [hsame.waitersOf,releaseOne_waitersOf,if_pos hl,hl]
    · refine .same (fun _ => rfl) (by simp [releases,hl]) ?_ ?_
      · rw [hsame.ownerOf,releaseOne_ownerOf,if_neg hl]
      · rw [hsame.waitersOf,releaseOne_waitersOf,if_neg hl]
  · rw [releaseLock_refused hp]
    refine .same (fun _ => rfl) ?_ rfl rfl
    by_cases hl : lock = l <;> simp [releases,hl,hp]

theorem releaseAll_lockChange {order : List UInt32}
    (horder : Finmap.Enumerates order s.lockOwners) :
    LockChange s (.releaseAll order p) (s.releaseAll order p).1 lock := by
  have hmem : lock ∈ order.filter (fun l => s.lockOwners.lookup l = some p) ↔
      s.ownerOf lock = some p := by
    rw [mem_filter,horder.2 lock,decide_eq_true_iff]
    exact ⟨And.right,fun h => ⟨Finmap.mem_of_lookup_eq_some h,h⟩⟩
  obtain ⟨howner,hwaiters⟩ := releaseOne_foldl (horder.1.filter _) s lock
  by_cases hp : s.ownerOf lock = some p
  · refine .handed (fun _ => rfl) (by simp [releases,hp]) ?_ ?_
    · exact howner.trans (if_pos (hmem.mpr hp))
    · exact hwaiters.trans (if_pos (hmem.mpr hp))
  · refine .same (fun _ => rfl) (by simp [releases,hp]) ?_ ?_
    · exact howner.trans (if_neg fun hin => hp (hmem.mp hin))
    · exact hwaiters.trans (if_neg fun hin => hp (hmem.mp hin))

theorem step_lockChange (hst : s.step op = some t) : LockChange s op t lock := by
  cases op with
  | acquireLock l p priority =>
    cases hst
    exact acquireLock_lockChange s l p priority lock
  | requestResource p priority l =>
    cases hst
    exact requestResource_lockChange s p priority l lock
  | releaseLock l p =>
    cases hst
    exact releaseLock_lockChange l
  | releaseAll order p =>
    simp only [step] at hst
    split at hst
    next horder =>
      cases hst
      exact releaseAll_lockChange horder
    next => cases hst
  | applyPendingBoosts | restorePriority =>
    cases hst
    exact .same (fun _ => rfl) rfl rfl rfl

structure Request where
  lock : UInt32
  pid : ProcessId
  priority : Priority
  reason : BoostReason
  deriving DecidableEq

def Op.request : Op → Option Request
  | .acquireLock l p priority => some ⟨l,p,priority,.lockContention⟩
  | .requestResource p priority l => some ⟨l,p,priority,.resourceWait⟩
  | _ => none

section
variable (hst : s.step op = some t)
include hst

/-- What an attempt to take a lock does: the requester has it already, runs into its owner,
or gets it. -/
theorem step_request {r : Request} (h : op.request = some r) :
    s.ownerOf r.lock = some r.pid ∧ t = s ∨
      (∃ owner waiters, s.ownerOf r.lock = some owner ∧ owner ≠ r.pid ∧
        t = { s.boostOwner owner r.priority r.reason with lockWaiters := waiters }) ∨
      s.ownerOf r.lock = none ∧
        t = { s with lockOwners := s.lockOwners.insert r.lock r.pid }.recordPriority r.pid
          r.priority := by
  cases op with
  | acquireLock l p priority =>
    cases h
    have ht := (some.inj hst).symm
    revert ht
    fun_cases acquireLock s l p priority with
    | case1 howner => exact fun ht => .inl ⟨howner,ht⟩
    | case2 owner howner hother => exact fun ht => .inr (.inl ⟨owner,_,howner,hother,ht⟩)
    | case3 hfree => exact fun ht => .inr (.inr ⟨hfree,ht⟩)
  | requestResource p priority l =>
    cases h
    have ht := (some.inj hst).symm
    revert ht
    fun_cases requestResource s p priority l with
    | case1 howner => exact fun ht => .inl ⟨howner,ht⟩
    | case2 owner howner hother => exact fun ht => .inr (.inl ⟨owner,_,howner,hother,ht⟩)
    | case3 hfree => exact fun ht => .inr (.inr ⟨hfree,ht⟩)
  | releaseLock | releaseAll | applyPendingBoosts | restorePriority => cases h

theorem step_acquired (free : s.ownerOf lock = none) (owner : t.ownerOf lock = some pid) :
    ∃ r, op.request = some r ∧ r.lock = lock ∧ r.pid = pid := by
  have hkept (heq : t.ownerOf lock = s.ownerOf lock) : False := by
    rw [heq,free] at owner
    cases owner
  cases hreq : op.request with
  | some r =>
    refine ⟨r,rfl,?_⟩
    rcases step_request hst hreq with ⟨-,rfl⟩ | ⟨holder,waiters,-,-,rfl⟩ | ⟨-,rfl⟩
    · exact (hkept rfl).elim
    · exact (hkept ((boostOwner_sameLocks s holder r.priority r.reason).ownerOf lock)).elim
    · rw [(recordPriority_sameLocks _ r.pid r.priority).ownerOf,ownerOf_insert] at owner
      split at owner
      next hl => exact ⟨hl.symm,some.inj owner⟩
      next =>
        rw [free] at owner
        cases owner
  | none =>
    exfalso
    apply hkept
    cases op with
    | acquireLock | requestResource => cases hreq
    | releaseLock l p =>
      cases hst
      by_cases hp : s.ownerOf l = some p
      · rw [(releaseLock_sameLocks hp).ownerOf,releaseOne_ownerOf,if_neg]
        rintro rfl
        rw [free] at hp
        cases hp
      · rw [releaseLock_refused hp]
    | releaseAll order p =>
      simp only [step] at hst
      split at hst
      next horder =>
        cases hst
        refine (releaseOne_foldl (horder.1.filter _) s lock).1.trans (if_neg fun hin => ?_)
        have hp : s.ownerOf lock = some p := of_decide_eq_true (mem_filter.mp hin).2
        rw [free] at hp
        cases hp
      next => cases hst
    | applyPendingBoosts | restorePriority p =>
      cases hst
      rfl

theorem step_keeps (howner : s.ownerOf lock = some pid) (hrel : s.releases op lock = false) :
    t.ownerOf lock = some pid := by
  cases step_lockChange hst with
  | same noBlock noRelease owner waiters => exact owner.trans howner
  | acquired p noBlock noRelease free =>
    rw [free] at howner
    cases howner
  | queued p holder block noRelease held other owner => exact owner.trans (held.symm.trans howner)
  | handed noBlock release =>
    rw [release] at hrel
    cases hrel

theorem step_handed (hrel : s.releases op lock = true) :
    t.ownerOf lock = (s.waitersOf lock).head? := by
  cases step_lockChange hst with
  | handed noBlock release owner => exact owner
  | same noBlock noRelease | acquired p noBlock noRelease | queued p holder block noRelease =>
    rw [noRelease] at hrel
    cases hrel

end

structure LockOk (owner : Option ProcessId) (waiters : List ProcessId) : Prop where
  ownerNotWaiting : ∀ pid, owner = some pid → pid ∉ waiters
  nodup : waiters.Nodup
  owned : waiters ≠ [] → owner ≠ none

variable (s)

def LocksOk : Prop := ∀ lock, LockOk (s.ownerOf lock) (s.waitersOf lock)

/-- No process asks for a lock that it already waits for. -/
def NoRepeatedRequest (op : Op) : Prop :=
  ∀ lock pid, s.blocks op lock pid = true → pid ∉ s.waitersOf lock

variable {s}

variable {holder : ProcessId}

namespace LockOk

variable {owner : Option ProcessId} {waiters : List ProcessId}

theorem waiters_of_free (h : LockOk none waiters) : waiters = [] := by
  by_contra hne
  exact h.owned hne rfl

theorem acquired (h : LockOk none waiters) (pid : ProcessId) : LockOk (some pid) waiters := by
  rw [h.waiters_of_free]
  exact ⟨fun _ _ => not_mem_nil,nodup_nil,fun hne => absurd rfl hne⟩

theorem handed (h : LockOk owner waiters) : LockOk waiters.head? waiters.tail := by
  cases waiters with
  | nil => exact ⟨fun _ hp => (nomatch hp),nodup_nil,fun hne => absurd rfl hne⟩
  | cons next rest =>
    obtain ⟨hnot,hrest⟩ := nodup_cons.mp h.nodup
    refine ⟨fun pid hp => ?_,hrest,fun _ => by simp⟩
    rw [← some.inj hp]
    exact hnot

theorem queued_iff (h : LockOk (some holder) waiters) (hne : holder ≠ pid) :
    LockOk (some holder) (waiters ++ [pid]) ↔ pid ∉ waiters := by
  have hnodup : (waiters ++ [pid]).Nodup ↔ pid ∉ waiters := by
    rw [nodup_append]
    constructor
    · rintro ⟨-,-,hdisj⟩ hmem
      exact hdisj pid hmem pid (mem_singleton.mpr rfl) rfl
    · intro hnot
      refine ⟨h.nodup,nodup_singleton pid,fun a ha b hb => ?_⟩
      rw [mem_singleton.mp hb]
      rintro rfl
      exact hnot ha
  refine ⟨fun hq => hnodup.mp hq.nodup,fun hnot => ⟨fun p hp => ?_,hnodup.mpr hnot,by simp⟩⟩
  rw [← some.inj hp,mem_append,mem_singleton,not_or]
  exact ⟨h.ownerNotWaiting holder rfl,hne⟩

end LockOk

theorem step_locksOk_iff (h : LocksOk s) (hst : s.step op = some t) :
    LocksOk t ↔ NoRepeatedRequest s op := by
  constructor
  · intro ht lock pid hblock
    cases step_lockChange hst with
    | same noBlock | acquired p noBlock | handed noBlock =>
      rw [noBlock pid] at hblock; cases hblock
    | queued p holder block noRelease held other owner waiters =>
      have hp : pid = p := by
        rw [block pid] at hblock
        exact of_decide_eq_true hblock
      have hok := h lock
      rw [held] at hok
      have hok' := ht lock
      rw [owner,waiters] at hok'
      rw [hp]
      exact (hok.queued_iff other).mp hok'
  · intro hreq lock
    have hok := h lock
    cases step_lockChange hst with
    | same noBlock noRelease owner waiters => rwa [owner,waiters]
    | acquired pid noBlock noRelease free owner waiters =>
      rw [free] at hok
      rw [owner,waiters]
      exact hok.acquired pid
    | queued pid holder block noRelease held other owner waiters =>
      rw [held] at hok
      rw [owner,waiters]
      exact (hok.queued_iff other).mpr (hreq lock pid (by simp [block]))
    | handed noBlock release owner waiters =>
      rw [owner,waiters]
      exact hok.handed

/-- The lock table with the time since when each process waits for each lock: from the first blocked
attempt until it owns the lock. -/
structure Traced where
  table : PriorityInheritance
  clock : ℕ
  since : UInt32 → ProcessId → Option ℕ

namespace Traced

def init : Traced := ⟨new,0,fun _ _ => none⟩

/-- The waiting times after an operation that led to `t`. -/
def waits (τ : Traced) (op : Op) (t : PriorityInheritance) (lock : UInt32) (pid : ProcessId) :
    Option ℕ :=
  if t.ownerOf lock = some pid then none
  else if τ.table.blocks op lock pid then some ((τ.since lock pid).getD τ.clock)
  else τ.since lock pid

def step (τ : Traced) (op : Op) : Option Traced :=
  (τ.table.step op).map fun t => ⟨t,τ.clock+1,τ.waits op t⟩

variable {τ τ' : Traced}

theorem step_eq_some (h : τ.step op = some τ') :
    τ.table.step op = some τ'.table ∧ τ'.clock = τ.clock+1 ∧
      τ'.since = τ.waits op τ'.table := by
  obtain ⟨t,ht,rfl⟩ := map_eq_some_iff.mp h
  exact ⟨ht,rfl,rfl⟩

/-- When an owner gives up a lock, it goes to the process that has waited longest, and to
nobody only if nobody waits. -/
def FairHandover (τ : Traced) (op : Op) (τ' : Traced) : Prop :=
  ∀ lock, τ.table.releases op lock = true →
    match τ'.table.ownerOf lock with
    | some pid => ∃ n, τ.since lock pid = some n ∧ ∀ p m, τ.since lock p = some m → n ≤ m
    | none => ∀ p, τ.since lock p = none

structure QueueOk (τ : Traced) (lock : UInt32) : Prop where
  mem : ∀ pid, pid ∈ τ.table.waitersOf lock ↔ τ.since lock pid ≠ none
  sorted : (τ.table.waitersOf lock).Pairwise fun p q =>
    ∀ m n, τ.since lock p = some m → τ.since lock q = some n → m < n
  past : ∀ pid n, τ.since lock pid = some n → n < τ.clock

/-- Waiting times that are not written are kept, and those of the owner were not set. -/
theorem waits_of_not_blocks (hblock : ∀ pid, τ.table.blocks op lock pid = false)
    (howner : ∀ pid, t.ownerOf lock = some pid → τ.since lock pid = none) :
    τ.waits op t lock pid = τ.since lock pid := by
  unfold waits
  split
  next h => exact (howner pid h).symm
  next => rw [hblock pid,if_neg Bool.false_ne_true]

section
variable (h : QueueOk τ lock)
include h

theorem QueueOk.since_eq_none (hnot : pid ∉ τ.table.waitersOf lock) : τ.since lock pid = none := by
  by_contra hne
  exact hnot ((h.mem pid).mpr hne)

theorem QueueOk.of_since_eq (hwaiters : τ'.table.waitersOf lock = τ.table.waitersOf lock)
    (hsince : ∀ pid, τ'.since lock pid = τ.since lock pid) (hclock : τ'.clock = τ.clock+1) :
    QueueOk τ' lock := by
  refine ⟨fun pid => ?_,?_,fun pid n hn => ?_⟩
  · rw [hwaiters,hsince,h.mem]
  · rw [hwaiters]
    simpa only [hsince] using h.sorted
  · rw [hsince] at hn
    have := h.past pid n hn
    omega

theorem QueueOk.queued (hok : LockOk (some holder) (τ.table.waitersOf lock)) (hother : holder ≠ pid)
    (hnot : pid ∉ τ.table.waitersOf lock)
    (hblock : ∀ p, τ.table.blocks op lock p = decide (p = pid))
    (howner : τ'.table.ownerOf lock = some holder)
    (hwaiters : τ'.table.waitersOf lock = τ.table.waitersOf lock ++ [pid])
    (hsince : τ'.since lock = τ.waits op τ'.table lock) (hclock : τ'.clock = τ.clock+1) :
    QueueOk τ' lock := by
  have hnew : τ'.since lock pid = some τ.clock := by
    rw [hsince,waits,howner,if_neg (by simpa using hother),hblock,if_pos (by simp),
      h.since_eq_none hnot,getD_none]
  have hold (p : ProcessId) (hp : p ≠ pid) : τ'.since lock p = τ.since lock p := by
    rw [hsince,waits,howner,hblock]
    split
    next he => rw [← some.inj he,h.since_eq_none (hok.ownerNotWaiting holder rfl)]
    next => simp [hp]
  have hmem (p : ProcessId) (hp : p ∈ τ.table.waitersOf lock) : p ≠ pid := by
    rintro rfl
    exact hnot hp
  refine ⟨fun p => ?_,?_,fun p n hn => ?_⟩
  · rw [hwaiters,mem_append,mem_singleton]
    by_cases hp : p = pid
    · simp [hp,hnew]
    · simp [hp,hold p hp,h.mem]
  · rw [hwaiters,pairwise_append]
    refine ⟨h.sorted.imp_of_mem fun {p q} hp hq hlt => ?_,pairwise_singleton _ _,
      fun p hp q hq m n hm hn => ?_⟩
    · rwa [hold p (hmem p hp),hold q (hmem q hq)]
    · rw [mem_singleton.mp hq,hnew,some.injEq] at hn
      rw [hold p (hmem p hp)] at hm
      have := h.past p m hm
      omega
  · by_cases hp : p = pid
    · rw [hp,hnew,some.injEq] at hn
      omega
    · rw [hold p hp] at hn
      have := h.past p n hn
      omega

theorem QueueOk.handed (hnodup : (τ.table.waitersOf lock).Nodup)
    (hblock : ∀ pid, τ.table.blocks op lock pid = false)
    (howner : τ'.table.ownerOf lock = (τ.table.waitersOf lock).head?)
    (hwaiters : τ'.table.waitersOf lock = (τ.table.waitersOf lock).tail)
    (hsince : τ'.since lock = τ.waits op τ'.table lock) (hclock : τ'.clock = τ.clock+1) :
    QueueOk τ' lock := by
  cases hws : τ.table.waitersOf lock with
  | nil =>
    rw [hws] at howner hwaiters
    refine h.of_since_eq (hwaiters.trans hws.symm) (fun pid => ?_) hclock
    rw [hsince]
    refine waits_of_not_blocks hblock (fun p hp => ?_)
    rw [howner] at hp
    cases hp
  | cons next rest =>
    have hsorted := h.sorted
    rw [hws] at howner hwaiters hnodup hsorted
    have hgone : τ'.since lock next = none := by rw [hsince,waits,howner,List.head?_cons,if_pos rfl]
    have hkept (p : ProcessId) (hp : p ≠ next) : τ'.since lock p = τ.since lock p := by
      rw [hsince,waits,howner,List.head?_cons,if_neg (by simpa using Ne.symm hp),hblock p,
        if_neg Bool.false_ne_true]
    have hne (p : ProcessId) (hp : p ∈ rest) : p ≠ next := by
      rintro rfl
      exact (nodup_cons.mp hnodup).1 hp
    refine ⟨fun p => ?_,?_,fun p n hn => ?_⟩
    · rw [hwaiters,tail_cons]
      by_cases hp : p = next
      · subst hp
        exact iff_of_false (fun hin => hne p hin rfl) (by simp [hgone])
      · rw [hkept p hp,← h.mem p,hws,mem_cons]
        simp [hp]
    · rw [hwaiters,tail_cons]
      refine (pairwise_cons.mp hsorted).2.imp_of_mem fun {p q} hp hq hlt => ?_
      rwa [hkept p (hne p hp),hkept q (hne q hq)]
    · have hp : p ≠ next := by
        rintro rfl
        rw [hgone] at hn
        cases hn
      rw [hkept p hp] at hn
      have := h.past p n hn
      omega

end

/-- The queues keep telling the truth as long as nobody asks twice. -/
theorem step_queueOk (hlocks : LocksOk τ.table) (h : ∀ lock, QueueOk τ lock)
    (hreq : NoRepeatedRequest τ.table op) (hst : τ.step op = some τ') (lock : UInt32) :
    QueueOk τ' lock := by
  obtain ⟨htable,hclock,hsince⟩ := step_eq_some hst
  have hs : τ'.since lock = τ.waits op τ'.table lock := by rw [hsince]
  have hok := hlocks lock
  cases step_lockChange htable with
  | same noBlock noRelease owner waiters =>
    refine (h lock).of_since_eq waiters (fun pid => ?_) hclock
    rw [hs]
    refine waits_of_not_blocks noBlock (fun p hp => ?_)
    exact (h lock).since_eq_none (hok.ownerNotWaiting p (owner ▸ hp))
  | acquired p noBlock noRelease free owner waiters =>
    refine (h lock).of_since_eq waiters (fun pid => ?_) hclock
    rw [hs]
    refine waits_of_not_blocks noBlock (fun q _ => (h lock).since_eq_none ?_)
    rw [free] at hok
    rw [hok.waiters_of_free]
    exact not_mem_nil
  | queued pid holder block noRelease held other owner waiters =>
    rw [held] at hok
    exact (h lock).queued hok other (hreq lock pid (by simp [block])) block owner waiters hs hclock
  | handed noBlock release owner waiters =>
    exact (h lock).handed hok.nodup noBlock owner waiters hs hclock

theorem step_fairHandover (h : ∀ lock, QueueOk τ lock) (hst : τ.step op = some τ') :
    FairHandover τ op τ' := by
  intro lock hrel
  obtain ⟨htable,-,-⟩ := step_eq_some hst
  cases step_lockChange htable with
  | same noBlock noRelease | acquired p noBlock noRelease | queued p holder block noRelease =>
    rw [noRelease] at hrel; cases hrel
  | handed noBlock release owner waiters =>
    rw [owner]
    cases hws : τ.table.waitersOf lock with
    | nil =>
      intro p
      refine (h lock).since_eq_none ?_
      rw [hws]
      exact not_mem_nil
    | cons next rest =>
      have hsome : τ.since lock next ≠ none := ((h lock).mem next).mp (by rw [hws]; simp)
      obtain ⟨n,hn⟩ := ne_none_iff_exists'.mp hsome
      refine ⟨n,hn,fun p m hm => ?_⟩
      have hp : p ∈ next::rest := by
        rw [← hws,(h lock).mem p,hm]
        simp
      rcases mem_cons.mp hp with rfl | hrest
      · rw [hn,some.injEq] at hm
        exact hm.le
      · have hsorted := (h lock).sorted
        rw [hws] at hsorted
        exact ((pairwise_cons.mp hsorted).1 p hrest n m hn hm).le

theorem init_locksOk : LocksOk init.table := fun _ =>
  ⟨fun _ hp => (nomatch hp),nodup_nil,fun hne => absurd rfl hne⟩

theorem init_queueOk (lock : UInt32) : QueueOk init lock :=
  ⟨fun _ => iff_of_false not_mem_nil fun h => h rfl,List.Pairwise.nil,fun _ _ hn => nomatch hn⟩

/-- In every run, all locks are in good order in every state and every lock goes to the process that
has waited longest, precisely if no process asks again for a lock that it waits for. -/
theorem lock_protocol_iff_no_repeated_request (ops : List Op) :
    (Always step (fun τ => LocksOk τ.table) init ops ∧ EachStep step FairHandover init ops) ↔
      EachStep step (fun τ op _ => NoRepeatedRequest τ.table op) init ops := by
  have hiff : Always step (fun τ => LocksOk τ.table) init ops ↔
      EachStep step (fun τ op _ => NoRepeatedRequest τ.table op) init ops :=
    always_iff_eachStep (J := fun _ => True) (fun _ _ _ _ _ => trivial)
      (fun _ _ _ _ h hst => step_locksOk_iff h (step_eq_some hst).1) trivial init_locksOk ops
  constructor
  · rintro ⟨h,-⟩
    exact hiff.mp h
  · intro hc
    have hlocks := hiff.mpr hc
    have hinv : Always step (fun τ => LocksOk τ.table ∧ ∀ lock, QueueOk τ lock) init ops :=
      hc.always (fun _ _ _ h hreq hst =>
        ⟨(step_locksOk_iff h.1 (step_eq_some hst).1).mpr hreq,step_queueOk h.1 h.2 hreq hst⟩)
        ⟨init_locksOk,init_queueOk⟩
    exact ⟨hlocks,hinv.eachStep (Q := FairHandover)
      (fun _ _ _ h _ hst => step_fairHandover h.2 hst) hc⟩

def repeatedRequestRun : List Op :=
  [.acquireLock 7 1 .normal,.acquireLock 7 2 .normal,.acquireLock 7 2 .normal,.releaseLock 7 1]

theorem owner_still_waits :
    ∃ τ, exec step init repeatedRequestRun = some τ ∧ τ.table.ownerOf 7 = some 2 ∧
      2 ∈ τ.table.waitersOf 7 ∧ ¬ LocksOk τ.table := by
  refine ⟨_,rfl,by decide,by decide,fun h => ?_⟩
  exact (h 7).ownerNotWaiting 2 (by decide) (by decide)

end Traced
end Aios.ProcessMgr.PriorityInheritance
