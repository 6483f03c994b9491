import Aios.Lib.Sha256
import Aios.Watchdog.Watchdog

/-!
Two runs of the watchdog that differ by one delivery of a heartbeat. The code never looks at the
sequence number, so an old heartbeat counts like a new one, unless no later call can tell.
-/
namespace Aios

open Aios.Core WatchdogConfig
variable {other : Option Heartbeat} {sha256 : List UInt8 → Digest}

namespace Watchdog

def forceSafeMode (w : Watchdog) (clock : Clock) : Watchdog :=
  { w with state := .safeMode }.logEvent (clock 0) .enteredSafeMode

def reset (w : Watchdog) : Watchdog :=
  { w with state := .monitoring, lastHeartbeat := none, missedCount := 0 }

inductive Event where
  | call (c : Call)
  | forceSafeMode (clock : Clock)
  | reset

def Answer.action? : Answer → Option WatchdogAction
  | .received _ _ => none
  | .action a => some a

/-- What is visible of a watchdog after an event: its state, the number of missed heartbeats, and
the action of a timeout check. -/
abbrev View := WatchdogState × UInt32 × Option WatchdogAction

section
variable (sha256)

def handle (w : Watchdog) : Event → Watchdog × Option WatchdogAction
  | .call c =>
    let r := w.call sha256 c
    (r.1,r.2.action?)
  | .forceSafeMode clock => (w.forceSafeMode clock,none)
  | .reset => (w.reset,none)

def react (w : Watchdog) (e : Event) : Watchdog × View :=
  let r := w.handle sha256 e
  (r.1,r.1.state,r.1.missedCount,r.2)

def handleAll (w : Watchdog) (events : List Event) : Watchdog :=
  (Transition.answers (react sha256) w events).1

def views (w : Watchdog) (events : List Event) : List View :=
  (Transition.answers (react sha256) w events).2

def accepted (secret : List UInt8) (events : List Event) : List Heartbeat :=
  events.filterMap fun
    | .call (.receiveHeartbeat hb _) => if hb.verify sha256 secret then some hb else none
    | _ => none

/-- A genuine heartbeat that is old: accepted before, or numbered no higher than the one that was
accepted last. -/
def Replays (config : WatchdogConfig) (before : List Event) (hb : Heartbeat) : Prop :=
  hb.verify sha256 config.secret = true ∧
    (hb ∈ accepted sha256 config.secret before ∨
      ∃ last ∈ (accepted sha256 config.secret before).getLast?, hb.sequence ≤ last.sequence)

/-- Delivering the heartbeat changes neither the state nor the count, now and after whatever
happens later, nor an action. -/
def Harmless (w : Watchdog) (hb : Heartbeat) (clock : Clock) : Prop :=
  let w' := (w.receiveHeartbeat sha256 hb clock).1
  w'.state = w.state ∧ w'.missedCount = w.missedCount ∧
    ∀ later, views sha256 w' later = views sha256 w later

end

theorem views_cons (w : Watchdog) (e : Event) (events : List Event) :
    views sha256 w (e::events) =
      ((w.handle sha256 e).1.state,(w.handle sha256 e).1.missedCount,(w.handle sha256 e).2)::
        views sha256 (w.handle sha256 e).1 events := rfl

/-! ### When a heartbeat lapses -/

section

/-- The age of a heartbeat is compared with the interval, or once the orchestrator is suspended with
the time to recover. -/
def limit (w : Watchdog) : UInt64 :=
  match w.state with
  | .suspended | .recovering => w.config.recoveryTimeoutMs
  | _ => w.config.heartbeatIntervalMs

/-- Whether the comparison finds the orchestrator silent, given the last heartbeat. -/
def silent (w : Watchdog) (last : Option Heartbeat) (now : UInt64) : Bool :=
  match w.state with
  | .suspended | .recovering =>
    decide (w.limit < last.elim (UInt64.ofNat (2^64-1)) fun hb => hb.ageMs now)
  | _ => last.all fun hb => decide (w.limit < hb.ageMs now)

/-- The first reading of the clock at which the orchestrator counts as silent, or `2 ^ 64` if
there is none. -/
def lapse (w : Watchdog) : Option Heartbeat → ℕ
  | some hb => min (hb.timestampMs.toNat+w.limit.toNat+1) (2^64)
  | none => if w.silent none 0 then 0 else 2^64

/-- The watchdog counts the heartbeat as nothing new: no miss is counted, and the heartbeat it
holds lapses at the same time. -/
def Absorbs (w : Watchdog) (hb : Heartbeat) : Prop :=
  (w.state = .monitoring ∨ w.state = .suspended) ∧ w.missedCount = 0 ∧
    w.lapse w.lastHeartbeat = w.lapse (some hb)

instance (w : Watchdog) (hb : Heartbeat) : Decidable (w.Absorbs hb) :=
  inferInstanceAs (Decidable ((_ ∨ _) ∧ _ ∧ _))

variable {w w' : Watchdog} {last : Option Heartbeat} {hb : Heartbeat} {now : UInt64}

theorem lt_ageMs_iff {limit : UInt64} :
    limit < hb.ageMs now ↔ hb.timestampMs.toNat+limit.toNat < now.toNat := by
  unfold Heartbeat.ageMs
  split
  next hle =>
    rw [UInt64.lt_iff_toNat_lt,UInt64.toNat_sub_of_le _ _ hle]
    omega
  next hlt =>
    rw [UInt64.not_le,UInt64.lt_iff_toNat_lt] at hlt
    rw [UInt64.lt_iff_toNat_lt,UInt64.toNat_zero]
    omega

theorem silent_some_iff : w.silent (some hb) now = true ↔
    hb.timestampMs.toNat+w.limit.toNat < now.toNat := by
  rw [← lt_ageMs_iff]
  unfold silent
  split
  · exact decide_eq_true_iff
  · exact decide_eq_true_iff
  · simp

theorem silent_none_eq : w.silent none now = w.silent none 0 := by
  unfold silent
  split <;> rfl

/-- Silence begins when the last heartbeat lapses. -/
theorem silent_iff : w.silent last now = true ↔ w.lapse last ≤ now.toNat := by
  have hnow := now.toNat_lt
  cases last with
  | none =>
    rw [silent_none_eq,lapse]
    split
    next h => simp [h]
    next h => exact ⟨fun hs => absurd hs h,fun hle => by omega⟩
  | some hb =>
    rw [silent_some_iff,lapse]
    omega

theorem silent_eq_of_lapse (h : w'.lapse other = w.lapse last) (now : UInt64) :
    w'.silent other now = w.silent last now := by
  rw [Bool.eq_iff_iff,silent_iff,silent_iff,h]

theorem lapse_congr (hc : w'.config = w.config) (hs : w'.state = w.state)
    (last : Option Heartbeat) : w'.lapse last = w.lapse last := by
  unfold lapse silent limit
  rw [hc,hs]

/-- The limit of the suspension is already the one of the recovery. -/
theorem lapse_recovering (hc : w'.config = w.config) (hs : w.state = .suspended)
    (hs' : w'.state = .recovering) : w'.lapse last = w.lapse last := by
  cases last <;> simp only [lapse,silent,limit,hc,hs,hs']

/-- What lapses together at all was made together. -/
theorem time_eq_of_lapse (h : w.lapse other = w.lapse last) (hlt : w.lapse last < 2^64) :
    other.map Heartbeat.timestampMs = last.map Heartbeat.timestampMs := by
  cases other <;> cases last <;> simp only [lapse] at h hlt
  · rfl
  · split at h <;> omega
  · rw [← h] at hlt
    split at h <;> omega
  · simp only [Option.map_some,Option.some.injEq,← UInt64.toNat_inj]
    omega

theorem lapse_eq_of_time (h : other.map Heartbeat.timestampMs = last.map Heartbeat.timestampMs) :
    w.lapse other = w.lapse last := by
  cases last with
  | none => rw [Option.map_eq_none_iff.mp h]
  | some hb =>
    obtain ⟨hb',rfl,htime⟩ := Option.map_eq_some_iff.mp h
    simp only [lapse,htime]

theorem lapse_le (w : Watchdog) (last : Option Heartbeat) : w.lapse last ≤ 2^64 := by
  unfold lapse
  split
  · exact min_le_right _ _
  · split <;> omega

/-- A reading of the clock tells apart what lapses at different times. -/
theorem exists_silent_ne (h : w.lapse last ≠ w.lapse other) :
    ∃ now, w.silent last now ≠ w.silent other now := by
  have hlast := w.lapse_le last
  have hother := w.lapse_le other
  have hword : min (w.lapse last) (w.lapse other) < 2^64 := by omega
  refine ⟨UInt64.ofNat (min (w.lapse last) (w.lapse other)),fun hsame => ?_⟩
  rw [Bool.eq_iff_iff,silent_iff,silent_iff,UInt64.toNat_ofNat_of_lt' hword] at hsame
  omega

end

/-! ### Runs that cannot be told apart -/

section
variable {w w' : Watchdog} {hb : Heartbeat} {clock : Clock}

/-- What a check decides, given whether the orchestrator is silent: the state, the number of missed
heartbeats and the action. -/
def verdict (config : WatchdogConfig) (state : WatchdogState) (missed : UInt32) (silent : Bool) :
    WatchdogState × UInt32 × WatchdogAction :=
  match state with
  | .monitoring | .warned =>
    if silent then
      if config.maxMissedHeartbeats ≤ missed+1 then
        (.suspended,missed+1,.suspendOrchestrator)
      else if config.warnThreshold ≤ missed+1 ∧ state = .monitoring then
        (.warned,missed+1,.warnOrchestrator)
      else (state,missed+1,.none)
    else (state,missed,.none)
  | .suspended => (.recovering,missed,.killProcess 0)
  | .recovering =>
    if silent then (.safeMode,missed,.safeModeShell) else (.recovering,missed,.waitForRecovery)
  | .safeMode => (.safeMode,missed,.inSafeMode)

/-- A check reads the last heartbeat only for whether the orchestrator is silent, and keeps it. -/
theorem checkTimeout_verdict (w : Watchdog) (clock : Clock) :
    ((w.checkTimeout clock).1.state,(w.checkTimeout clock).1.missedCount,(w.checkTimeout clock).2) =
      verdict w.config w.state w.missedCount (w.silent w.lastHeartbeat (clock 0)) ∧
    (w.checkTimeout clock).1.lastHeartbeat = w.lastHeartbeat := by
  unfold checkTimeout verdict silent limit
  cases hs : w.state <;> simp only [decide_eq_true_eq]
  case suspended | safeMode => simp [logEvent,hs]
  all_goals split_ifs <;> simp_all [logEvent]

/-- Where the orchestrator is not silent, the limit stays what it was. -/
theorem lapse_checkTimeout (h : w.silent w.lastHeartbeat (clock 0) = false)
    (last : Option Heartbeat) : (w.checkTimeout clock).1.lapse last = w.lapse last := by
  have hnext := congrArg Prod.fst (w.checkTimeout_verdict clock).1
  rw [h] at hnext
  unfold lapse silent limit
  cases hs : w.state <;> simp only [verdict,hs,Bool.false_eq_true,if_false] at hnext
  all_goals simp only [hnext,checkTimeout_config]

theorem receiveHeartbeat_lastHeartbeat (h : hb.verify sha256 w.config.secret = true) :
    (w.receiveHeartbeat sha256 hb clock).1.lastHeartbeat = some hb := by
  unfold receiveHeartbeat
  simp only [h,Bool.not_true,Bool.false_eq_true,if_false]
  split <;> rfl

/-- Two watchdogs in the same state whose last heartbeats lapse together, or will not be compared
with the clock again. -/
structure Alike (w w' : Watchdog) : Prop where
  config : w'.config = w.config
  state : w'.state = w.state
  missedCount : w'.missedCount = w.missedCount
  last : w.state = .safeMode ∨ w'.lapse w'.lastHeartbeat = w.lapse w.lastHeartbeat

namespace Alike

theorem receiveHeartbeat (h : Alike w w') (hb : Heartbeat) (clock : Clock) :
    Alike (w.receiveHeartbeat sha256 hb clock).1 (w'.receiveHeartbeat sha256 hb clock).1 := by
  cases hv : hb.verify sha256 w.config.secret with
  | false =>
    have hv' : hb.verify sha256 w'.config.secret = false := by rw [h.config,hv]
    rw [receiveHeartbeat_invalid hv,receiveHeartbeat_invalid hv']
    exact h
  | true =>
    have hv' : hb.verify sha256 w'.config.secret = true := by rw [h.config,hv]
    constructor
    · rw [receiveHeartbeat_config,receiveHeartbeat_config,h.config]
    · rw [(receiveHeartbeat_valid hv).1,(receiveHeartbeat_valid hv').1,h.state]
    · rw [(receiveHeartbeat_valid hv).2,(receiveHeartbeat_valid hv').2]
    · right
      rw [receiveHeartbeat_lastHeartbeat hv,receiveHeartbeat_lastHeartbeat hv']
      apply lapse_congr
      · rw [receiveHeartbeat_config,receiveHeartbeat_config,h.config]
      · rw [(receiveHeartbeat_valid hv).1,(receiveHeartbeat_valid hv').1,h.state]

theorem checkTimeout (h : Alike w w') (clock : Clock) :
    Alike (w.checkTimeout clock).1 (w'.checkTimeout clock).1 ∧
      (w'.checkTimeout clock).2 = (w.checkTimeout clock).2 := by
  obtain ⟨hmove,hlast⟩ := w.checkTimeout_verdict clock
  obtain ⟨hmove',hlast'⟩ := w'.checkTimeout_verdict clock
  have hconfig : (w'.checkTimeout clock).1.config = (w.checkTimeout clock).1.config := by
    rw [checkTimeout_config,checkTimeout_config,h.config]
  rw [h.config,h.state,h.missedCount] at hmove'
  obtain hsafe | hlapse := h.last
  · -- In the safe mode the last heartbeat is not read.
    rw [hsafe] at hmove hmove'
    simp only [verdict,Prod.mk.injEq] at hmove hmove'
    exact ⟨⟨hconfig,hmove'.1.trans hmove.1.symm,hmove'.2.1.trans hmove.2.1.symm,.inl hmove.1⟩,
      hmove'.2.2.trans hmove.2.2.symm⟩
  · have hsame := silent_eq_of_lapse hlapse (clock 0)
    rw [hsame,← hmove] at hmove'
    simp only [Prod.mk.injEq] at hmove'
    obtain ⟨hstate,hcount,haction⟩ := hmove'
    refine ⟨⟨hconfig,hstate,hcount,.inr ?_⟩,haction⟩
    rw [hlast,hlast']
    cases hsilent : w.silent w.lastHeartbeat (clock 0) with
    | false => rw [lapse_checkTimeout hsilent,lapse_checkTimeout (hsame.trans hsilent),hlapse]
    | true =>
      -- The limit may change with the state, but a heartbeat that has lapsed tells its time.
      have htime := time_eq_of_lapse ((lapse_congr h.config h.state _).symm.trans hlapse)
        ((silent_iff.mp hsilent).trans_lt (clock 0).toNat_lt)
      rw [lapse_congr hconfig hstate,lapse_eq_of_time htime]

variable (sha256) in
theorem handle (h : Alike w w') (e : Event) : Alike (w.handle sha256 e).1 (w'.handle sha256 e).1 ∧
      (w'.handle sha256 e).2 = (w.handle sha256 e).2 := by
  cases e with
  | call c =>
    cases c with
    | receiveHeartbeat hb clock => exact ⟨h.receiveHeartbeat hb clock,rfl⟩
    | checkTimeout clock =>
      obtain ⟨hnext,haction⟩ := h.checkTimeout clock
      exact ⟨hnext,congrArg some haction⟩
  | forceSafeMode clock => exact ⟨⟨h.config,rfl,h.missedCount,.inl rfl⟩,rfl⟩
  | reset =>
    refine ⟨⟨h.config,rfl,rfl,.inr ?_⟩,rfl⟩
    apply lapse_congr
    · exact h.config
    · rfl

theorem views_eq (h : Alike w w') (later : List Event) :
    views sha256 w' later = views sha256 w later := by
  induction later generalizing w w' with
  | nil => rfl
  | cons e later ih =>
    obtain ⟨hnext,haction⟩ := h.handle sha256 e
    simp only [views_cons,hnext.state,hnext.missedCount,haction,ih hnext]

end Alike

/-- An absorbed heartbeat leaves the watchdog as it was, up to what no call compares. -/
theorem Absorbs.alike (h : w.Absorbs hb) (clock : Clock)
    (hv : hb.verify sha256 w.config.secret = true) :
    Alike w (w.receiveHeartbeat sha256 hb clock).1 := by
  obtain ⟨hs,hmissed,hlapse⟩ := h
  obtain ⟨hstate,hcount⟩ := @receiveHeartbeat_valid sha256 w hb clock hv
  have hsame : (w.receiveHeartbeat sha256 hb clock).1.state = w.state := by
    rw [hstate]
    obtain hs | hs := hs <;> simp [hs]
  refine ⟨receiveHeartbeat_config,hsame,hcount.trans hmissed.symm,.inr ?_⟩
  rw [receiveHeartbeat_lastHeartbeat hv,lapse_congr receiveHeartbeat_config hsame,hlapse]

end

/-! ### Runs that a delivery changes -/

section
variable {w w' : Watchdog} {now : UInt64}

/-- The check that shows whether the orchestrator counts as silent; while it is suspended the
first check only starts the recovery. -/
def probe (w : Watchdog) (now : UInt64) : List Event :=
  if w.state = .suspended then
    [.call (.checkTimeout fun _ => now),.call (.checkTimeout fun _ => now)]
  else [.call (.checkTimeout fun _ => now)]

theorem missedCount_checkTimeout (hs : w.state = .monitoring) (hmissed : w.missedCount = 0) :
    (w.checkTimeout fun _ => now).1.missedCount =
      if w.silent w.lastHeartbeat now then 1 else 0 := by
  have hmove := congrArg (·.2.1) (w.checkTimeout_verdict fun _ => now).1
  simp only [verdict,hs,hmissed] at hmove
  rw [hmove]
  split_ifs <;> rfl

theorem action_after_suspended (hs : w.state = .suspended) :
    ((w.checkTimeout fun _ => now).1.checkTimeout fun _ => now).2 =
      if w.silent w.lastHeartbeat now then .safeModeShell else .waitForRecovery := by
  obtain ⟨hmove,hlast⟩ := w.checkTimeout_verdict fun _ => now
  have hnext : (w.checkTimeout fun _ => now).1.state = .recovering := by
    simpa [verdict,hs] using congrArg Prod.fst hmove
  have hthen := congrArg (·.2.2)
    ((w.checkTimeout fun _ => now).1.checkTimeout_verdict fun _ => now).1
  rw [hlast,silent_eq_of_lapse (lapse_recovering checkTimeout_config hs hnext)] at hthen
  simp only [verdict,hnext] at hthen
  rw [hthen]
  split_ifs <;> rfl

theorem silent_eq_of_views_probe (hs : w.state = .monitoring ∨ w.state = .suspended)
    (hstate : w'.state = w.state) (hmissed : w.missedCount = 0) (hmissed' : w'.missedCount = 0)
    (h : views sha256 w' (w.probe now) = views sha256 w (w.probe now)) :
    w'.silent w'.lastHeartbeat now = w.silent w.lastHeartbeat now := by
  obtain hs | hs := hs
  · have hs' := hstate.trans hs
    have hcount : (w'.checkTimeout fun _ => now).1.missedCount =
        (w.checkTimeout fun _ => now).1.missedCount := by
      simp only [probe,hs,reduceCtorEq,if_false,views_cons,List.cons.injEq,Prod.mk.injEq] at h
      exact h.1.2.1
    rw [missedCount_checkTimeout hs hmissed,missedCount_checkTimeout hs' hmissed'] at hcount
    cases hw : w.silent w.lastHeartbeat now <;> cases hw' : w'.silent w'.lastHeartbeat now <;>
      simp [hw,hw'] at hcount ⊢
  · have hs' := hstate.trans hs
    have haction : ((w'.checkTimeout fun _ => now).1.checkTimeout fun _ => now).2 =
        ((w.checkTimeout fun _ => now).1.checkTimeout fun _ => now).2 := by
      simp only [probe,hs,if_true,views_cons,handle,call,Answer.action?,List.cons.injEq,
        Prod.mk.injEq,Option.some.injEq] at h
      exact h.2.1.2.2
    rw [action_after_suspended hs,action_after_suspended hs'] at haction
    cases hw : w.silent w.lastHeartbeat now <;> cases hw' : w'.silent w'.lastHeartbeat now <;>
      simp [hw,hw'] at haction ⊢

/-- Whatever the watchdog has been through, a genuine heartbeat changes nothing that is visible
exactly when it is absorbed. -/
theorem harmless_iff_absorbs {hb : Heartbeat} (clock : Clock)
    (hv : hb.verify sha256 w.config.secret = true) :
    Harmless sha256 w hb clock ↔ w.Absorbs hb := by
  obtain ⟨hstate,hcount⟩ := @receiveHeartbeat_valid sha256 w hb clock hv
  constructor
  · rintro ⟨hsame,hmissed,hviews⟩
    have hs : w.state = .monitoring ∨ w.state = .suspended := by
      rw [hsame] at hstate
      split at hstate
      · exact .inr hstate
      · exact .inl hstate
    refine ⟨hs,hmissed.symm.trans hcount,?_⟩
    by_contra hlapse
    obtain ⟨now,hne⟩ := exists_silent_ne hlapse
    have hsilent := silent_eq_of_views_probe hs hsame (hmissed.symm.trans hcount) hcount
      (hviews (w.probe now))
    rw [receiveHeartbeat_lastHeartbeat hv,
      silent_eq_of_lapse (lapse_congr receiveHeartbeat_config hsame _)] at hsilent
    exact hne hsilent.symm
  · intro habsorbs
    have halike := habsorbs.alike clock hv
    exact ⟨halike.state,halike.missedCount,halike.views_eq⟩

end

theorem handleAll_config (w : Watchdog) (events : List Event) :
    (w.handleAll sha256 events).config = w.config := by
  apply Transition.answers_unchanged (react sha256)
  intro w e
  cases e with
  | call c => exact call_config sha256 w c
  | forceSafeMode clock => rfl
  | reset => rfl

/-- After every run, an old heartbeat delivered once more leaves everything visible as it is exactly
when the watchdog absorbs it. -/
theorem replay_harmless_iff (sha256 : List UInt8 → Digest) (config : WatchdogConfig)
    (before : List Event) (hb : Heartbeat) (clock : Clock)
    (hreplay : Replays sha256 config before hb) :
    Harmless sha256 ((new config).handleAll sha256 before) hb clock ↔
      ((new config).handleAll sha256 before).Absorbs hb := by
  apply harmless_iff_absorbs
  rw [handleAll_config]
  exact hreplay.1

/-- The heartbeat of a moment at which the clock shows zero. -/
def earlyBeat : Heartbeat := Heartbeat.new Sha256.sha256 0 1 default.secret

def silentRun : List Event :=
  [.call (.receiveHeartbeat earlyBeat fun _ => 0),.call (.checkTimeout fun _ => 5000),
    .call (.checkTimeout fun _ => 6000)]

/-- Two checks without a new heartbeat warn the orchestrator; the old heartbeat takes it back. -/
theorem replay_takes_warning_back : earlyBeat ∈ accepted Sha256.sha256 default.secret silentRun ∧
      ((new .default).handleAll Sha256.sha256 silentRun).state = .warned ∧
      ((new .default).handleAll Sha256.sha256 silentRun).missedCount = 2 ∧
      (((new .default).handleAll Sha256.sha256 silentRun).receiveHeartbeat Sha256.sha256 earlyBeat
        fun _ => 7000).1.state = .monitoring ∧
      (((new .default).handleAll Sha256.sha256 silentRun).receiveHeartbeat Sha256.sha256 earlyBeat
        fun _ => 7000).1.missedCount = 0 := by
  have hbeat : earlyBeat.verify Sha256.sha256 default.secret = true :=
    Heartbeat.verify_new Sha256.sha256 0 1 _
  refine ⟨?_,by decide +kernel⟩
  simp [accepted,silentRun,hbeat]

/-- A copy that arrives right behind the heartbeat itself is not noticed. -/
theorem replay_harmless_sample : Harmless Sha256.sha256 ((new .default).handleAll Sha256.sha256
      [.call (.receiveHeartbeat earlyBeat fun _ => 0)]) earlyBeat fun _ => 1 := by
  have hbeat : earlyBeat.verify Sha256.sha256 default.secret = true :=
    Heartbeat.verify_new Sha256.sha256 0 1 _
  have hreplay : Replays Sha256.sha256 .default [.call (.receiveHeartbeat earlyBeat fun _ => 0)]
      earlyBeat := ⟨hbeat,.inl (by simp [accepted,hbeat])⟩
  refine (replay_harmless_iff Sha256.sha256 .default _ earlyBeat (fun _ => 1) hreplay).mpr ?_
  decide +kernel

end Watchdog
end Aios
