import Aios.ProcessMgr.Lifecycle

/-!
RAM accounting. The spawn functions compare `used + requested` with the total in 64-bit arithmetic.
Unless that sum wraps, the account equals the quotas of the live processes and a request is refused
exactly when it does not fit; one that makes it wrap is always admitted.
-/
namespace Aios.ProcessMgr

open Finmap Process

@[simp] theorem satSub_toNat (a b : UInt64) : (satSub a b).toNat = a.toNat-b.toNat := by
  unfold satSub
  split
  next h =>
    rw [UInt64.lt_iff_toNat_lt] at h
    have hz : a.toNat-b.toNat = 0 := by omega
    rw [hz]
    rfl
  next h =>
    rw [UInt64.lt_iff_toNat_lt] at h
    apply UInt64.toNat_sub_of_le
    rw [UInt64.le_iff_toNat_le]
    omega

variable {pid : ProcessId} {process : Process} {op : Op}

namespace Scheduler

open Transition
variable {s t : Scheduler} {cfg : Config}

/-- The true sum of the quotas of the live processes. -/
def quotaSum (s : Scheduler) : ℕ := s.processes.total fun p => p.ramQuotaMb.toNat

structure RamExact (s : Scheduler) : Prop where
  used : s.usedRamMb.toNat = s.quotaSum
  fits : s.usedRamMb ≤ s.totalRamMb

structure SnapshotsMatch (s : Scheduler) : Prop where
  below : ∀ pid ∈ s.snapshots, pid < s.nextPid
  quota : ∀ pid snap proc, s.snapshots.lookup pid = some snap →
    s.processes.lookup pid = some proc → snap.ramQuotaMb = proc.ramQuotaMb

structure Supports (s : Scheduler) : Prop where
  pids : PidsBelow s
  snapshots : SnapshotsMatch s

theorem SnapshotsMatch.congr (h : SnapshotsMatch s)
    (hq : ∀ pid, (t.processes.lookup pid).map ramQuotaMb = (s.processes.lookup pid).map ramQuotaMb)
    (hs : t.snapshots = s.snapshots) (hn : s.nextPid ≤ t.nextPid) : SnapshotsMatch t := by
  refine ⟨fun pid hp => ?_,fun pid snap proc hsnap hproc => ?_⟩
  · rw [hs] at hp
    exact (h.below pid hp).trans_le hn
  · have hold := hq pid
    rw [hproc] at hold
    obtain ⟨old,hold,he⟩ := Option.map_eq_some_iff.mp hold.symm
    rw [hs] at hsnap
    rw [← he]
    exact h.quota pid snap old hsnap hold

theorem Killed.snapshotsMatch (hk : Killed s t pid) (h : SnapshotsMatch s) : SnapshotsMatch t := by
  refine ⟨fun j hj => ?_,fun j snap proc hsnap hproc => ?_⟩
  · rw [hk.snapshots] at hj
    rw [hk.nextPid]
    exact h.below j (mem_erase.mp hj).2
  · rw [hk.snapshots,lookup_erase_if] at hsnap
    rw [hk.processes,lookup_erase_if] at hproc
    split at hsnap
    · simp at hsnap
    next hne =>
      rw [if_neg hne] at hproc
      exact h.quota j snap proc hsnap hproc

theorem Spawned.snapshotsMatch (hs : Spawned s t process) (h : SnapshotsMatch s) :
    SnapshotsMatch t := by
  have hlt (pid : ProcessId) (hp : pid ∈ t.snapshots) : pid < s.nextPid ∨
      pid = s.nextPid ∧ t.snapshots.lookup pid = some (TaskSnapshot.capture process) := by
    rcases hs.snapshots with he | he <;> rw [he] at hp ⊢
    · exact .inl (h.below pid hp)
    · rcases mem_insert.mp hp with rfl | hp
      · exact .inr ⟨rfl,lookup_insert _⟩
      · exact .inl (h.below pid hp)
  refine ⟨fun pid hp => ?_,fun pid snap proc hsnap hproc => ?_⟩
  · rw [hs.nextPid]
    rcases hlt pid hp with hb | ⟨rfl,-⟩
    · exact hb.trans (Nat.lt_succ_self _)
    · exact Nat.lt_succ_self _
  · rw [hs.processes,lookup_insert_if] at hproc
    rcases hlt pid (mem_of_lookup_eq_some hsnap) with hb | ⟨rfl,hcap⟩
    · rw [if_neg hb.ne] at hproc
      have hold : s.snapshots.lookup pid = some snap := by
        rcases hs.snapshots with he | he
        · rw [← he]
          exact hsnap
        · rwa [he,lookup_insert_of_ne _ hb.ne] at hsnap
      exact h.quota pid snap proc hold hproc
    · rw [if_pos rfl] at hproc
      rw [hcap] at hsnap
      cases hsnap
      cases hproc
      rfl

theorem rollback_quota (h : SnapshotsMatch s) (pid : ProcessId) :
    (∀ j, ((s.resolveFault pid .rollback).1.processes.lookup j).map ramQuotaMb =
      (s.processes.lookup j).map ramQuotaMb) ∧
    (s.resolveFault pid .rollback).1.snapshots = s.snapshots ∧
    (s.resolveFault pid .rollback).1.nextPid = s.nextPid := by
  rcases rollback_cases s pid with hk | ⟨-,snap,proc,hsnap,hproc,he⟩
  · exact ⟨hk.field ramQuotaMb fun _ => rfl,hk.snapshots,hk.nextPid⟩
  · rw [he]
    refine ⟨fun j => ?_,rfl,rfl⟩
    dsimp only [modifyProcess]
    rw [lookup_adjust]
    split
    next hj =>
      rw [hj,hproc]
      exact congrArg some (h.quota pid snap proc hsnap hproc)
    next => rfl

theorem step_supports (h : Supports s) (hst : s.step op = some t) : Supports t := by
  refine ⟨step_pidsBelow h.pids hst,?_⟩
  rcases op.writes_cases with ⟨ramMb,hop⟩ | ⟨pid,rfl⟩ | ⟨hsp,hroll⟩
  · rcases step_spawn hop hst with ⟨-,-,hr⟩ | ⟨-,-,-,process,-,hs⟩
    · exact h.snapshots.congr (fun pid => by rw [hr.processes]) hr.snapshots hr.nextPid
    · exact hs.snapshotsMatch h.snapshots
  · cases hst
    obtain ⟨hq,hs,hn⟩ := rollback_quota h.snapshots pid
    exact h.snapshots.congr hq hs hn.ge
  · exact step_preserves
      (fun _ hk => h.snapshots.congr (hk.field ramQuotaMb fun _ => rfl) hk.snapshots hk.nextPid.ge)
      (fun s t pid hk h => hk.snapshotsMatch h)
      (fun s pid process priority _ h => h.congr (map_lookup_adjust fun _ => rfl) rfl le_rfl)
      (fun s groups n _ _ h => ⟨h.below,h.quota⟩)
      (fun s pid groupId h => h.congr (map_lookup_adjust fun _ => rfl) rfl le_rfl)
      hsp hroll h.snapshots hst

theorem RamExact.congr (h : RamExact s) (hq : ∀ pid, (t.processes.lookup pid).map ramQuotaMb =
      (s.processes.lookup pid).map ramQuotaMb)
    (hu : t.usedRamMb = s.usedRamMb) (ht : t.totalRamMb = s.totalRamMb) : RamExact t := by
  have hsum : t.quotaSum = s.quotaSum := total_congr fun pid => by
    simpa only [Option.map_map,Function.comp_def] using congrArg (Option.map UInt64.toNat) (hq pid)
  exact ⟨by rw [hu,hsum,h.used],by rw [hu,ht]; exact h.fits⟩

theorem Killed.ramExact (hk : Killed s t pid) (h : RamExact s) : RamExact t := by
  cases hp : s.processes.lookup pid with
  | none =>
    apply h.congr _ _ hk.total
    · intro j
      rw [hk.processes,erase_of_lookup_eq_none hp]
    · rw [hk.used,hp]
      rfl
  | some process =>
    have hsum : process.ramQuotaMb.toNat+t.quotaSum = s.quotaSum := by
      unfold quotaSum
      rw [hk.processes]
      exact total_erase (fun p => p.ramQuotaMb.toNat) hp
    have hused : t.usedRamMb = satSub s.usedRamMb process.ramQuotaMb := by
      rw [hk.used,hp]
      rfl
    have hu := h.used
    have hf := h.fits
    rw [UInt64.le_iff_toNat_le] at hf
    constructor
    · rw [hused,satSub_toNat]
      omega
    · rw [hused,hk.total,UInt64.le_iff_toNat_le,satSub_toNat]
      omega

/-- An admitted spawn keeps the account exact precisely if the 64-bit sum did not wrap. -/
theorem Spawned.ramExact_iff (hs : Spawned s t process) (hj : PidsBelow s) (h : RamExact s)
    (hfits : ¬ s.totalRamMb < s.usedRamMb+process.ramQuotaMb) :
    RamExact t ↔ s.usedRamMb.toNat+process.ramQuotaMb.toNat < 2^64 := by
  have hsum : t.quotaSum = process.ramQuotaMb.toNat+s.quotaSum := by
    unfold quotaSum
    rw [hs.processes]
    exact total_insert _ _ (lookup_eq_none.mp hj.fresh)
  have hused := h.used
  constructor
  · intro ht
    have hu := ht.used
    rw [hs.used,hsum,UInt64.toNat_add] at hu
    omega
  · intro hlt
    have hu : t.usedRamMb.toNat = s.usedRamMb.toNat+process.ramQuotaMb.toNat := by
      rw [hs.used,UInt64.toNat_add,Nat.mod_eq_of_lt hlt]
    refine ⟨by omega,?_⟩
    rw [hs.used,hs.total]
    exact UInt64.not_lt.mp hfits

/-- The request of a spawn that gets its thread does not wrap the 64-bit sum. -/
def RequestDoesNotWrap (s : Scheduler) (op : Op) : Prop :=
  ∀ ramMb, op.spawnRequest = some ramMb → op.osRefuses = false →
    s.usedRamMb.toNat+ramMb.toNat < 2^64

/-- A wrapped sum is below what is in use, so it always passes the check. -/
theorem no_wrap_of_check_fails {ramMb : UInt64} (h : RamExact s)
    (hr : s.totalRamMb < s.usedRamMb+ramMb) : s.usedRamMb.toNat+ramMb.toNat < 2^64 := by
  have hf := h.fits
  rw [UInt64.le_iff_toNat_le] at hf
  rw [UInt64.lt_iff_toNat_lt,UInt64.toNat_add] at hr
  have hm := ramMb.toNat_lt
  omega

theorem step_ramExact_iff (hj : Supports s) (h : RamExact s) (hst : s.step op = some t) :
    RamExact t ↔ RequestDoesNotWrap s op := by
  rcases op.writes_cases with ⟨ramMb,hop⟩ | ⟨pid,rfl⟩ | ⟨hsp,hroll⟩
  · rcases step_spawn hop hst with ⟨why,-,hr⟩ | ⟨hfits,hos,-,process,rfl,hs⟩
    · have ht : RamExact t := h.congr (fun pid => by rw [hr.processes]) hr.used hr.total
      refine ⟨fun _ ram hram hos => ?_,fun _ => ht⟩
      rw [hop,Option.some.injEq] at hram
      rw [← hram]
      rcases why with hlt | hrefuse
      · exact no_wrap_of_check_fails h hlt
      · simp [hos] at hrefuse
    · rw [hs.ramExact_iff hj.pids h hfits]
      refine ⟨fun hlt ram hram _ => ?_,fun hc => hc _ hop hos⟩
      rw [hop,Option.some.injEq] at hram
      rwa [← hram]
  · cases hst
    obtain ⟨hq,-,-⟩ := rollback_quota hj.snapshots pid
    have hacc : RamExact (s.resolveFault pid .rollback).1 := by
      rcases rollback_cases s pid with hk | ⟨-,snap,proc,-,-,he⟩
      · exact h.congr hq hk.usedRamMb hk.totalRamMb
      · exact h.congr hq (by rw [he]; rfl) (by rw [he]; rfl)
    exact iff_of_true hacc fun _ hop => nomatch hop
  · have ht : RamExact t := by
      exact step_preserves
        (fun _ hk => h.congr (hk.field ramQuotaMb fun _ => rfl) hk.usedRamMb hk.totalRamMb)
        (fun s t pid hk h => hk.ramExact h)
        (fun s pid process priority _ h => h.congr (map_lookup_adjust fun _ => rfl) rfl rfl)
        (fun s groups n _ _ h => ⟨h.used,h.fits⟩)
        (fun s pid groupId h => h.congr (map_lookup_adjust fun _ => rfl) rfl rfl)
        hsp hroll h hst
    refine iff_of_true ht fun ram hram => ?_
    rw [hsp] at hram
    cases hram

/-- A spawn fails exactly when the true sum of the quotas would exceed the total, or when it gets no
thread; a failed spawn changes neither processes nor queues nor account. -/
def SpawnExact (s : Scheduler) (op : Op) (t : Scheduler) : Prop :=
  ∀ ramMb, op.spawnRequest = some ramMb → ((∃ e, s.spawnResult op = some (.error e)) ↔
      s.totalRamMb.toNat < s.quotaSum+ramMb.toNat ∨ op.osRefuses = true) ∧
    ((∃ e, s.spawnResult op = some (.error e)) →
      t.processes = s.processes ∧ t.priorityQueues = s.priorityQueues ∧
        t.usedRamMb = s.usedRamMb ∧ t.totalRamMb = s.totalRamMb)

theorem step_spawnExact (h : RamExact s) (hc : RequestDoesNotWrap s op) (hst : s.step op = some t) :
    SpawnExact s op t := by
  intro ramMb hop
  have hcheck (hos : op.osRefuses = false) :
      s.totalRamMb < s.usedRamMb+ramMb ↔ s.totalRamMb.toNat < s.quotaSum+ramMb.toNat := by
    rw [UInt64.lt_iff_toNat_lt,UInt64.toNat_add,Nat.mod_eq_of_lt (hc ramMb hop hos),h.used]
  rcases step_spawn hop hst with ⟨why,hres,hr⟩ | ⟨hfits,hos,hres,process,-,hs⟩
  · refine ⟨⟨fun _ => ?_,fun _ => hres⟩,fun _ => ⟨hr.processes,hr.queues,hr.used,hr.total⟩⟩
    cases hos : op.osRefuses with
    | true => exact .inr rfl
    | false =>
      rcases why with hlt | hrefuse
      · exact .inl ((hcheck hos).mp hlt)
      · simp [hos] at hrefuse
  · have hok : ¬ ∃ e, s.spawnResult op = some (.error e) := by
      rintro ⟨e,he⟩
      rw [hres] at he
      cases he
    refine ⟨⟨fun he => absurd he hok,fun hwhy => ?_⟩,fun he => absurd he hok⟩
    rcases hwhy with hlt | hrefuse
    · exact absurd ((hcheck hos).mpr hlt) hfits
    · simp [hos] at hrefuse

theorem init_supports : Supports (init cfg) :=
  ⟨init_pidsBelow cfg,fun _ h => absurd h notMem_empty,fun _ _ _ h => nomatch h⟩

theorem init_ramExact : RamExact (init cfg) :=
  ⟨rfl,by rw [UInt64.le_iff_toNat_le]; exact Nat.zero_le _⟩

/-- In every run, the account is exact and every spawn decides by the true sum, precisely if no
admitted request wraps the 64-bit sum. -/
theorem ram_accounting_exact_iff_no_request_wraps (cfg : Config) (ops : List Op) :
    (Always step RamExact (init cfg) ops ∧ EachStep step SpawnExact (init cfg) ops) ↔
      EachStep step (fun s op _ => RequestDoesNotWrap s op) (init cfg) ops := by
  have hiff : Always step RamExact (init cfg) ops ↔
      EachStep step (fun s op _ => RequestDoesNotWrap s op) (init cfg) ops :=
    always_iff_eachStep (J := Supports) (fun s op t hj hst => step_supports hj hst)
      (fun s op t hj h hst => step_ramExact_iff hj h hst) init_supports
      init_ramExact ops
  constructor
  · rintro ⟨h,-⟩
    exact hiff.mp h
  · intro hc
    have h := hiff.mpr hc
    exact ⟨h,h.eachStep (Q := SpawnExact) (fun _ _ _ hs hc hst => step_spawnExact hs hc hst) hc⟩

def wrappingSpawnRun : List Op :=
  [.spawnProcess ⟨0,0⟩ "a" .normal 60,.spawnProcess ⟨0,0⟩ "b" .normal 18446744073709551606]

theorem wrapping_request_is_admitted :
    ∃ t, exec step (init ⟨100,10,500,3⟩) wrappingSpawnRun = some t ∧ ¬ RamExact t := by
  refine ⟨_,rfl,fun h => ?_⟩
  have hu := h.used
  revert hu
  decide

end Scheduler
end Aios.ProcessMgr
